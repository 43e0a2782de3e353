import Hieratika.Receiver.Resync

/-!
# What a rejected frame costs

`ReadVarNameAndIndex` gives up the frame at hand in two ways. If its index or its size is out of
range, the whole payload is emptied: with the frame go all the bytes that have come behind it, and
what is still to come of the last of them has to be passed over. If its name is too long, the
payload is kept from the last byte of the name on, but the loop ends, and the frames behind it are
read with the next chunk, if there is one.

`advance` and `Position.receive` say this for frames and lengths, without the bytes: which frames
are handed over, which are thrown away, and where the parser is then. This is what it does as long
as it finds the next frame again (`Legible`): there is no quote in what it passes over, the
next name does not begin with the rest of the pattern, and the buffer is in the range of the
counters. `rejected_cost_iff` says when a rejected frame then costs no other.
-/

namespace Hieratika.Receiver

open Foundations Diode

variable {r : DiodeReceiver} {env : Env} {threadId : ℕ} {f : Frame} {fs frames : List Frame} {st : Service}
variable {g p rest : List UInt8} {n m : ℕ} {ms : List ℕ}

/-! ### Frames and lengths -/

/-- The frame passes the checks of `ReadVarNameAndIndex`. -/
def Passes (r : DiodeReceiver) (f : Frame) : Prop :=
  f.name.length ≤ pvNameMaxSize ∧ f.index < r.numberOfVariables ∧ f.size < u32 (8 * r.maxArraySize)

instance (r : DiodeReceiver) (f : Frame) : Decidable (Passes r f) := by
  unfold Passes
  infer_instance

/-- Where the parser is between two chunks. -/
inductive Position where
  /-- At the first of the frames `fs`, with `n` bytes in the buffer. -/
  | synced (n : ℕ) (fs : List Frame)
  /-- In the rest `g` of a frame that is given up; of it and the frames `fs` there have come `n` bytes. -/
  | lost (g : List UInt8) (n : ℕ) (fs : List Frame)

/-- The frames that are still ahead. -/
def Position.ahead : Position → List Frame
  | .synced _ fs => fs
  | .lost _ _ fs => fs

/-- The bytes that have come since the position. -/
def Position.held : Position → ℕ
  | .synced n _ => n
  | .lost _ n _ => n

/-- What the parser makes of the payload. -/
structure Outcome where
  handed : List Frame
  thrown : List Frame
  position : Position

/-- `n` bytes are thrown away. -/
def throwAway : ℕ → List Frame → List Frame × Position
  | _, [] => ([], .synced 0 [])
  | n, f :: fs =>
    if n = 0 then ([], .synced 0 (f :: fs))
    else if n < f.encode.length then ([f], .lost (f.encode.drop n) 0 fs)
    else (f :: (throwAway (n - f.encode.length) fs).1, (throwAway (n - f.encode.length) fs).2)

/-- The loop over a payload of `n` bytes. -/
def advance (r : DiodeReceiver) : ℕ → List Frame → Outcome
  | n, [] => ⟨[], [], .synced n []⟩
  | n, f :: fs =>
    if pvNameMaxSize < f.name.length then
      if n < f.name.length + 4 then ⟨[], [], .synced n (f :: fs)⟩
      else ⟨[], [f], .lost (f.encode.drop f.name.length) (n - f.name.length) fs⟩
    else if r.numberOfVariables ≤ f.index ∨ u32 (8 * r.maxArraySize) ≤ f.size then
      if n < f.name.length + 16 then ⟨[], [], .synced n (f :: fs)⟩
      else ⟨[], (throwAway n (f :: fs)).1, (throwAway n (f :: fs)).2⟩
    else if n < f.encode.length then ⟨[], [], .synced n (f :: fs)⟩
    else
      let o := advance r (n - f.encode.length) fs
      ⟨f :: o.handed, o.thrown, o.position⟩

/-- A chunk of `m` bytes; a position is found again with three bytes of the next frame. -/
def Position.receive (r : DiodeReceiver) (m : ℕ) : Position → Outcome
  | .synced n fs => advance r (n + m) fs
  | .lost g n fs =>
      if n + m < g.length + 3 then ⟨[], [], .lost g (n + m) fs⟩ else advance r (n + m - g.length) fs

/-- The frames that are handed over from chunks of the lengths `ms`. -/
def Position.handedBy (r : DiodeReceiver) : Position → List ℕ → List Frame
  | _, [] => []
  | pos, m :: ms => (pos.receive r m).handed ++ (pos.receive r m).position.handedBy r ms

/-- No frame that passes the checks is thrown away, nor left behind a rejected one at the end. -/
def Position.Unharmed (r : DiodeReceiver) : Position → List ℕ → Prop
  | .synced _ _, [] => True
  | .lost _ _ fs, [] => ∀ f ∈ fs, ¬ Passes r f
  | pos, m :: ms => (∀ f ∈ (pos.receive r m).thrown, ¬ Passes r f) ∧ (pos.receive r m).position.Unharmed r ms

instance Position.decidableUnharmed (r : DiodeReceiver) :
    ∀ (ms : List ℕ) (pos : Position), Decidable (pos.Unharmed r ms)
  | [], .synced _ _ => isTrue trivial
  | [], .lost _ _ fs => inferInstanceAs (Decidable (∀ f ∈ fs, ¬ Passes r f))
  | m :: ms, .synced n fs =>
    have := decidableUnharmed r ms ((Position.synced n fs).receive r m).position
    inferInstanceAs (Decidable (_ ∧ _))
  | m :: ms, .lost g n fs =>
    have := decidableUnharmed r ms ((Position.lost g n fs).receive r m).position
    inferInstanceAs (Decidable (_ ∧ _))

/-- Where the parser is after these chunks. -/
def Position.after (r : DiodeReceiver) : Position → List ℕ → Position
  | pos, [] => pos
  | pos, m :: ms => (pos.receive r m).position.after r ms

/-- The next frame can be found again: one pattern at most is in the way, and the name is not like one. -/
def Position.Clear : Position → Prop
  | .synced _ _ => True
  | .lost g _ fs => Cut g ∧ ∀ f, fs.head? = some f → ¬ [58, 32] <+: f.name

/-- The length of the frame at hand is in the range of the counters. -/
def Position.Fits : Position → Prop
  | .synced _ fs => ∀ f, fs.head? = some f → f.encode.length < 2 ^ 32
  | .lost _ _ _ => True

/-- With every chunk the parser finds its way, and the counters reach. -/
def Position.Legible (r : DiodeReceiver) : Position → List ℕ → Prop
  | _, [] => True
  | pos, m :: ms => pos.Clear ∧ pos.held + m < 2 ^ 32 ∧ (pos.receive r m).position.Fits ∧
      (pos.receive r m).position.Legible r ms

/-! ### No frame is forgotten -/

theorem throwAway_frames :
    ∀ (fs : List Frame) (n : ℕ), fs = (throwAway n fs).1 ++ (throwAway n fs).2.ahead := by
  intro fs
  induction fs with
  | nil => exact fun _ => rfl
  | cons f fs ih =>
    intro n
    rw [throwAway]
    split_ifs with h₁ h₂
    · rfl
    · rfl
    · exact congrArg (f :: ·) (ih _)

theorem advance_frames : ∀ (fs : List Frame) (n : ℕ),
    fs = (advance r n fs).handed ++ ((advance r n fs).thrown ++ (advance r n fs).position.ahead) := by
  intro fs
  induction fs with
  | nil => exact fun _ => rfl
  | cons f fs ih =>
    intro n
    rw [advance]
    split_ifs
    · rfl
    · rfl
    · rfl
    · exact throwAway_frames _ n
    · rfl
    · exact congrArg (f :: ·) (ih _)

theorem advance_handed : ∀ (fs : List Frame) (n : ℕ), ∀ f ∈ (advance r n fs).handed, Passes r f := by
  intro fs
  induction fs with
  | nil => simp [advance]
  | cons f fs ih =>
    intro n
    rw [advance]
    split_ifs with hname _ hcheck
    · simp
    · simp
    · simp
    · simp
    · simp
    · rw [not_or, not_le, not_le] at hcheck
      intro g hg
      cases hg with
      | head => exact ⟨not_lt.mp hname, hcheck⟩
      | tail _ hg => exact ih _ g hg

theorem Position.receive_frames (pos : Position) : pos.ahead =
    (pos.receive r m).handed ++ ((pos.receive r m).thrown ++ (pos.receive r m).position.ahead) := by
  cases pos with
  | synced n fs => exact advance_frames fs _
  | lost g n fs =>
    rw [receive]
    split_ifs
    · rfl
    · exact advance_frames fs _

theorem Position.receive_handed (pos : Position) : ∀ f ∈ (pos.receive r m).handed, Passes r f := by
  cases pos with
  | synced n fs => exact advance_handed fs _
  | lost g n fs =>
    rw [receive]
    split_ifs
    · simp
    · exact advance_handed fs _

/-- The frames that pass the checks. -/
def passing (r : DiodeReceiver) (fs : List Frame) : List Frame := fs.filter fun f => Passes r f

theorem passing_eq_self (h : ∀ f ∈ fs, Passes r f) : passing r fs = fs :=
  List.filter_eq_self.mpr fun f hf => decide_eq_true (h f hf)

theorem passing_eq_nil : passing r fs = [] ↔ ∀ f ∈ fs, ¬ Passes r f := by
  rw [passing, List.filter_eq_nil_iff]
  simp only [decide_eq_true_eq]

theorem passing_append (fs fs' : List Frame) : passing r (fs ++ fs') = passing r fs ++ passing r fs' :=
  List.filter_append _ _

theorem Position.passing_ahead (pos : Position) : passing r pos.ahead = (pos.receive r m).handed ++
    (passing r (pos.receive r m).thrown ++ passing r (pos.receive r m).position.ahead) := by
  conv_lhs => rw [pos.receive_frames (r := r) (m := m), passing_append, passing_append,
    passing_eq_self pos.receive_handed]

/-! ### The parser follows -/

/-- A frame in the sender's format, whether it is accepted or not. -/
structure Formed (f : Frame) : Prop extends Shaped f where
  index_lt : f.index < 2 ^ 32
  size_lt : f.size < 2 ^ 32
  offset_lt : f.offset < 2 ^ 32

theorem Formed.accepts (h : Formed f) (hp : Passes r f) : Accepts r f :=
  ⟨hp.1, h.name_quote, h.name_nul, hp.2.1, lt_of_lt_of_le hp.2.2 (u32_le _), h.offset_lt,
    h.value_length, h.timeStamp_length⟩

theorem length_encode_pos (f : Frame) : 0 < f.encode.length := by
  simp [Frame.encode]

/-- The payload and the bytes still to come are those of the position. -/
def Position.At : Position → Service → List UInt8 → Prop
  | .synced n fs, st, rest => st.payload.length = n ∧ st.payload ++ rest = wire fs ∧
      ∀ f, fs.head? = some f → n < f.encode.length
  | .lost g n fs, st, rest => ∃ k ≤ g.length, st.payload.length + k = n ∧
      st.payload ++ rest = g.drop k ++ wire fs

theorem throwAway_at (s : Store) (calls : List Call) :
    ∀ (fs : List Frame) (p : List UInt8), p ++ rest = wire fs →
    (throwAway p.length fs).2.At ⟨[], s, calls⟩ rest := by
  intro fs
  induction fs with
  | nil =>
    intro p hw
    exact ⟨rfl, (List.append_eq_nil_iff.mp hw).2, by simp⟩
  | cons f fs ih =>
    intro p hw
    rw [throwAway]
    split_ifs with h₀ hlt
    · rw [List.length_eq_zero_iff.mp h₀] at hw
      refine ⟨rfl, hw, ?_⟩
      rintro _ ⟨⟩
      exact length_encode_pos f
    · have hrest := congrArg (List.drop p.length) hw
      rw [List.drop_left, wire_cons, List.drop_append_of_le_length hlt.le] at hrest
      exact ⟨0, Nat.zero_le _, rfl, hrest⟩
    · obtain ⟨q, rfl⟩ : f.encode <+: p :=
        List.prefix_of_prefix_length_le (List.prefix_append _ (wire fs)) ⟨rest, hw⟩ (not_lt.mp hlt)
      rw [wire_cons, List.append_assoc, List.append_cancel_left_eq] at hw
      have := ih q hw
      rwa [List.length_append, Nat.add_sub_cancel_left]

/-- A name that is too long: the payload is kept from its last byte on. -/
theorem readVarNameAndIndex_nameLong (r : DiodeReceiver) (env : Env) (h : Shaped f) {t : List UInt8}
    (hp : p <+: f.encode ++ t) (hlen : p.length < 2 ^ 32)
    (hname : pvNameMaxSize < f.name.length) (hlong : f.name.length + 4 ≤ p.length) :
    ReadVarNameAndIndex r env p (p.drop f.name.length, none) := by
  have hne : p ≠ [] := List.ne_nil_of_length_pos (by omega)
  refine ⟨p, true, resynced_of_part hp hne, p, _, patternTurn_found h hp hlen hlong, ?_⟩
  simp only [DiodeReceiver.readHeader]
  rw [sub32_succ (by omega), if_neg (not_le.mpr hname), min_eq_left (by omega), shift_eq_drop hlen]

/-- An index or a size out of range: the payload is emptied. -/
theorem readVarNameAndIndex_range (env : Env) (h : Formed f) {t : List UInt8} (hp : p <+: f.encode ++ t)
    (hlen : p.length < 2 ^ 32)
    (hname : f.name.length ≤ pvNameMaxSize)
    (hcheck : r.numberOfVariables ≤ f.index ∨ u32 (8 * r.maxArraySize) ≤ f.size)
    (hlong : f.name.length + 16 ≤ p.length) : ReadVarNameAndIndex r env p ([], none) := by
  have hread : ReadVarNameAndIndex r env p _ :=
    readVarNameAndIndex_checked h.toShaped hname h.index_lt h.size_lt hp hlen hlong
  rwa [if_pos hcheck] at hread

/-- The loop does what `advance` says. -/
theorem consumes_advance (env : Env) (threadId : ℕ) : ∀ (fs : List Frame), (∀ f ∈ fs, Formed f) →
    ∀ (st : Service) (rest : List UInt8), st.payload ++ rest = wire fs → st.payload.length < 2 ^ 32 →
    (advance r st.payload.length fs).position.Fits →
    ∃ st', Service.Consumes r env threadId st st' ∧
      st'.calls = st.calls ++ (advance r st.payload.length fs).handed.map callOf ∧
      (advance r st.payload.length fs).position.At st' rest := by
  intro fs
  induction fs with
  | nil =>
    intro _ st rest hw _ _
    have hnil : st.payload = [] := (List.append_eq_nil_iff.mp hw).1
    have hleave : Service.Leaves r env st { st with payload := [] } :=
      .noHeader (by rw [hnil]; exact readVarNameAndIndex_nil)
    refine ⟨_, ⟨st, .refl, hleave⟩, by simp [advance], ?_, ?_, by simp⟩
    · rw [hnil]
    · rw [← hw, hnil]
  | cons f fs ih =>
    intro hform st rest hw hlen hfits
    have hf := hform f (by simp)
    have hp : st.payload <+: f.encode ++ wire fs := ⟨rest, hw⟩
    have hl := length_encode hf.toShaped
    have hstay : ReadVarNameAndIndex r env st.payload (st.payload, none) →
      st.payload.length < f.encode.length →
        ∃ st', Service.Consumes r env threadId st st' ∧ st'.calls = st.calls ++ ([] : List Frame).map callOf ∧
          (Position.synced st.payload.length (f :: fs)).At st' rest := fun hrv hlt => by
      refine ⟨_, ⟨st, .refl, .noHeader hrv⟩, by simp, rfl, hw, ?_⟩
      rintro _ ⟨⟩
      exact hlt
    rw [advance] at hfits ⊢
    split_ifs at hfits ⊢ with hname hshort hcheck hshort hshort
    · exact hstay (readVarNameAndIndex_noPattern hf.toShaped hp hlen hshort) (by omega)
    · have hrv := readVarNameAndIndex_nameLong r env hf.toShaped hp hlen hname (by omega)
      refine ⟨_, ⟨st, .refl, .noHeader hrv⟩, by simp, 0, Nat.zero_le _, by simp, ?_⟩
      dsimp only
      rw [← List.drop_append_of_le_length (by omega), hw, wire_cons, List.drop_append_of_le_length (by omega)]
      rfl
    · exact hstay (readVarNameAndIndex_short hf.toShaped (not_lt.mp hname) hp hlen hshort) (by omega)
    · have hrv := readVarNameAndIndex_range env hf hp hlen (not_lt.mp hname) hcheck (by omega)
      exact ⟨_, ⟨st, .refl, .noHeader hrv⟩, by simp, throwAway_at _ _ _ _ hw⟩
    · rw [not_or, not_le, not_le] at hcheck
      have hacc := hf.accepts ⟨not_lt.mp hname, hcheck⟩
      obtain ⟨s, hleave⟩ := leaves_incomplete env hcheck.2 hacc (hfits f rfl) hp hshort
      refine ⟨_, ⟨st, .refl, hleave⟩, by simp, rfl, hw, ?_⟩
      rintro _ ⟨⟩
      exact hshort
    · rw [not_or, not_le, not_le] at hcheck
      have hacc := hf.accepts ⟨not_lt.mp hname, hcheck⟩
      obtain ⟨s, hstore⟩ := stores_complete env threadId hcheck.2 hacc (by omega) hp hlen (not_lt.mp hshort)
      have hw' : st.payload.drop f.encode.length ++ rest = wire fs := by
        rw [← List.drop_append_of_le_length (not_lt.mp hshort), hw, wire_cons, List.drop_left]
      obtain ⟨st', ⟨t, ht, hleave⟩, hcalls, hat⟩ :=
        ih (fun g hg => hform g (by simp [hg])) ⟨_, s, st.calls ++ [callOf f]⟩ rest hw' (by simp; omega)
          (by rwa [List.length_drop])
      rw [List.length_drop] at hcalls hat
      exact ⟨st', ⟨t, Reachable.trans (Reachable.next .refl hstore) ht, hleave⟩, by simp [hcalls], hat⟩

/-- A payload of at most two bytes of a frame. -/
theorem readVarNameAndIndex_opens {q : List UInt8} (hq : q ≠ [] → Opens q) (hshort : q.length < 3) :
    ReadVarNameAndIndex r env q (q, none) := by
  by_cases hne : q = []
  · rw [hne]
    exact readVarNameAndIndex_nil
  · exact readVarNameAndIndex_few (hq hne).head hshort

/-- **One chunk**: the frames that `receive` says are handed over, and the parser is where it says. -/
theorem Position.At.receive {pos : Position} (env : Env) (threadId : ℕ) {data : List UInt8}
    (h : pos.At st (data ++ rest))
    (hform : ∀ f ∈ pos.ahead, Formed f) (hpos : pos.Clear) (hlen : pos.held + data.length < 2 ^ 32)
    (hfits : (pos.receive r data.length).position.Fits) :
    ∃ st', Service.Consumes r env threadId { st with payload := st.payload ++ data } st' ∧
      st'.calls = st.calls ++ (pos.receive r data.length).handed.map callOf ∧
      (pos.receive r data.length).position.At st' rest := by
  cases pos with
  | synced n fs =>
    obtain ⟨rfl, hw, -⟩ := h
    rw [Position.receive, ← List.length_append] at hfits ⊢
    exact consumes_advance env threadId fs hform { st with payload := st.payload ++ data } rest
      (by rw [← hw, List.append_assoc]) (by rwa [List.length_append]) hfits
  | lost g n fs =>
    obtain ⟨k, hk, rfl, hw⟩ := h
    obtain ⟨hcut, hname⟩ := hpos
    have hw' : (st.payload ++ data) ++ rest = g.drop k ++ wire fs := by rw [List.append_assoc, hw]
    have hlen' : (st.payload ++ data).length < 2 ^ 32 := by
      rw [List.length_append]
      simp only [held] at hlen
      omega
    have hturn := (hcut.drop k).turn r env hw' (opens_wire hname) hlen'
    rw [Position.receive] at hfits ⊢
    split_ifs at hfits ⊢ with hfew
    · have hkeep : ∃ j ≤ (st.payload ++ data).length, k + j ≤ g.length ∧
          ReadVarNameAndIndex r env (st.payload ++ data) ((st.payload ++ data).drop j, none) := by
        rcases hturn with ⟨-, j, hj, hjg, hkeep⟩ | ⟨q, hq, hqw, hreads⟩
        · exact ⟨j, hj, by rw [List.length_drop] at hjg; omega, hkeep⟩
        · have hql := congrArg List.length hq
          simp only [List.length_append, List.length_drop] at hql
          have hopens : q ≠ [] → Opens q := fun hne =>
            (opens_wire hname (by rw [← hqw]; simp [hne])).of_part ⟨rest, hqw⟩ hne
          refine ⟨g.length - k, by rw [List.length_append]; omega, by omega, ?_⟩
          rw [hq, ← List.length_drop, List.drop_left, ← hq]
          exact hreads _ (readVarNameAndIndex_opens hopens (by omega))
      obtain ⟨j, hj, hjg, hkeep⟩ := hkeep
      refine ⟨_, ⟨_, .refl, .noHeader hkeep⟩, by simp, k + j, hjg, ?_, ?_⟩
      · simp only [List.length_drop, List.length_append] at hj ⊢
        omega
      · dsimp only
        rw [← List.drop_append_of_le_length hj, hw',
          List.drop_append_of_le_length (by rw [List.length_drop]; omega),
          List.drop_drop]
    · rcases hturn with ⟨hlt, -⟩ | ⟨q, hq, hqw, hreads⟩
      · rw [List.length_append, List.length_drop] at hlt
        omega
      · have hql := congrArg List.length hq
        simp only [List.length_append, List.length_drop] at hql
        have hqn : st.payload.length + k + data.length - g.length = q.length := by omega
        rw [List.length_append] at hlen'
        rw [hqn] at hfits ⊢
        obtain ⟨st', hcons, hcalls, hat⟩ :=
          consumes_advance env threadId fs hform { st with payload := q } rest hqw
          (show q.length < 2 ^ 32 by omega) hfits
        exact ⟨st', Service.Consumes.of_reads hreads hcons, hcalls, hat⟩

/-! ### The whole request -/

theorem Position.handedBy_sublist :
    ∀ (ms : List ℕ) (pos : Position), (pos.handedBy r ms).Sublist (passing r pos.ahead) := by
  intro ms
  induction ms with
  | nil => exact fun _ => List.nil_sublist _
  | cons m ms ih =>
    intro pos
    rw [handedBy, pos.passing_ahead (m := m)]
    exact (List.Sublist.refl _).append ((ih _).trans (List.sublist_append_right _ _))

/-- If no frame is left ahead of a parser that is at one, then as many frames are handed over as
pass the checks if and only if none of them is lost. -/
theorem Position.unharmed_iff :
    ∀ (ms : List ℕ) (pos : Position), (∀ n fs, pos.after r ms = .synced n fs → fs = []) →
    (pos.Unharmed r ms ↔ (passing r pos.ahead).length ≤ (pos.handedBy r ms).length) := by
  intro ms
  induction ms with
  | nil =>
    intro pos hend
    cases pos with
    | synced n fs =>
      rw [hend n fs rfl]
      exact ⟨fun _ => le_rfl, fun _ => trivial⟩
    | lost g n fs =>
      show (∀ f ∈ fs, ¬ Passes r f) ↔ (passing r fs).length ≤ 0
      rw [← passing_eq_nil, Nat.le_zero, List.length_eq_zero_iff]
  | cons m ms ih =>
    intro pos hend
    have hle := (handedBy_sublist (r := r) ms (pos.receive r m).position).length_le
    have hrest := ih (pos.receive r m).position hend
    have hthrown :
        (∀ f ∈ (pos.receive r m).thrown, ¬ Passes r f) ↔ (passing r (pos.receive r m).thrown).length = 0 := by
      rw [← passing_eq_nil, List.length_eq_zero_iff]
    have hstep : pos.Unharmed r (m :: ms) ↔ (∀ f ∈ (pos.receive r m).thrown, ¬ Passes r f) ∧
        (pos.receive r m).position.Unharmed r ms := by
      cases pos <;> rfl
    rw [hstep, hthrown, hrest, handedBy, pos.passing_ahead (m := m)]
    simp only [List.length_append]
    omega

variable {toSize : List UInt8 → ℕ}

/-- What the parser does with a request, chunk by chunk. -/
theorem clientService_handed (env : Env) (threadId : ℕ) (s : Store) (tail : List UInt8)
    (hform : ∀ f ∈ frames, Formed f)
    {chunks : List Chunk} {lastLine : List UInt8} (hdata : chunks.flatMap Chunk.data = wire frames)
    (hch : ∀ ch ∈ chunks, ch.data ≠ [] ∧ SizeLine toSize ch.line ch.data.length)
    (hlast : SizeLine toSize lastLine 0)
    (hleg : (Position.synced 0 frames).Legible r (chunks.map fun ch => ch.data.length)) :
    ∃ st, (∀ res, ClientService r env threadId toSize true 0 (chunked chunks lastLine ++ tail) s res ↔
      res = some st) ∧
      st.calls = ((Position.synced 0 frames).handedBy r (chunks.map fun ch => ch.data.length)).map callOf ∧
      ∀ n fs, (Position.synced 0 frames).after r (chunks.map fun ch => ch.data.length) = .synced n fs →
        fs = [] := by
  obtain ⟨st, hread, pos, hat, -, -, hcalls, hafter⟩ := readsBody_of_chunks r env threadId
    (I := fun st chs => ∃ pos : Position, pos.At st (chs.flatMap Chunk.data) ∧ (∀ f ∈ pos.ahead, Formed f) ∧
      pos.Legible r (chs.map fun ch => ch.data.length) ∧
      st.calls ++ (pos.handedBy r (chs.map fun ch => ch.data.length)).map callOf =
        ((Position.synced 0 frames).handedBy r (chunks.map fun ch => ch.data.length)).map callOf ∧
      pos.after r (chs.map fun ch => ch.data.length) =
        (Position.synced 0 frames).after r (chunks.map fun ch => ch.data.length)) tail hlast
    (fun ch chs st hne ⟨pos, hat, hform, ⟨hpos, hlen, hfits, hleg⟩, hcalls, hafter⟩ => by
      rw [List.flatMap_cons] at hat
      obtain ⟨st', hcons, hcalls', hat'⟩ := hat.receive env threadId hform hpos hlen hfits
      refine ⟨(Nat.le_add_left _ _).trans_lt hlen, st', hcons, _, hat', fun f hf => hform f ?_, hleg,
        ?_, hafter⟩
      · rw [pos.receive_frames (r := r) (m := ch.data.length)]
        simp [hf]
      · rw [← hcalls, hcalls', List.map_cons, Position.handedBy, List.map_append, List.append_assoc])
    chunks ⟨[], s, []⟩ 0
    ⟨.synced 0 frames, ⟨rfl, hdata, fun f _ => length_encode_pos f⟩, hform, hleg, List.nil_append _, rfl⟩ hch
  refine ⟨st, fun res => ⟨fun hres => hres.unique ?_, ?_⟩, by simpa [Position.handedBy] using hcalls, ?_⟩
  · simpa [ClientService, chunked] using hread
  · rintro rfl
    simpa [ClientService, chunked] using hread
  · intro n fs hend
    rw [← hafter] at hend
    cases hend
    obtain ⟨hn, hw, hlt⟩ := hat
    cases fs with
    | nil => rfl
    | cons f fs =>
      have hlen := congrArg List.length hw
      have hlt := hlt f rfl
      simp only [List.flatMap_nil, List.append_nil, wire_cons, List.length_append] at hlen
      omega

/-! ### Streams without quotes -/

/-- A frame that the parser can pass over, and find. -/
structure Plain (f : Frame) : Prop extends Unquoted f where
  not_pattern : ¬ [58, 32] <+: f.name

/-- The bytes from the position to the end of the stream. -/
def Position.total : Position → ℕ
  | .synced _ fs => (wire fs).length
  | .lost g _ fs => g.length + (wire fs).length

/-- A position in a stream of plain frames, with `k` bytes still to come. -/
structure Position.Sound (pos : Position) (k : ℕ) : Prop where
  plain : ∀ f ∈ pos.ahead, Plain f
  clear : pos.Clear
  count : pos.held + k = pos.total

theorem clear_lost (hcut : Cut g) (hplain : ∀ f ∈ fs, Plain f) : (Position.lost g n fs).Clear :=
  ⟨hcut, fun f hf => (hplain f (List.mem_of_mem_head? hf)).not_pattern⟩

/-- What is left of a frame once a byte of it is gone. -/
theorem Plain.cut_drop (h : Plain f) (hn : n ≠ 0) : Cut (f.encode.drop n) := by
  refine h.toUnquoted.cut (List.drop_suffix n _) fun heq => ?_
  have hlen := congrArg List.length heq
  have hpos := length_encode_pos f
  rw [List.length_drop] at hlen
  omega

/-- Behind the first bytes of a frame the position is lost, but sound. -/
theorem sound_lost {i k : ℕ} (hplain : ∀ g ∈ f :: fs, Plain g) (hi : i ≠ 0) (hle : i ≤ f.encode.length)
    (hin : i ≤ n)
    (hk : n + k = (wire (f :: fs)).length) : (Position.lost (f.encode.drop i) (n - i) fs).Sound k ∧
      (Position.lost (f.encode.drop i) (n - i) fs).total ≤ (wire (f :: fs)).length := by
  have hplain' : ∀ g ∈ fs, Plain g := fun g hg => hplain g (by simp [hg])
  have hcut := (hplain f (by simp)).cut_drop hi
  have htotal : (Position.lost (f.encode.drop i) (n - i) fs).total = (wire (f :: fs)).length - i := by
    rw [Position.total, wire_cons, List.length_append, List.length_drop]
    omega
  refine ⟨⟨hplain', clear_lost hcut hplain', ?_⟩, by omega⟩
  rw [htotal, Position.held]
  omega

theorem throwAway_sound {k : ℕ} :
    ∀ (fs : List Frame) (n : ℕ), (∀ f ∈ fs, Plain f) → n + k = (wire fs).length →
    (throwAway n fs).2.Sound k ∧ (throwAway n fs).2.total ≤ (wire fs).length := by
  intro fs
  induction fs with
  | nil =>
    intro n hplain hk
    refine ⟨⟨by simp [throwAway, Position.ahead], trivial, ?_⟩, le_rfl⟩
    simp only [wire, List.flatMap_nil, List.length_nil, Nat.add_eq_zero_iff] at hk
    simp [throwAway, Position.held, Position.total, wire, hk]
  | cons f fs ih =>
    intro n hplain hk
    have hplain' : ∀ g ∈ fs, Plain g := fun g hg => hplain g (by simp [hg])
    have hl : (wire (f :: fs)).length =
      f.encode.length + (wire fs).length := by rw [wire_cons, List.length_append]
    rw [throwAway]
    split_ifs with h₀ hlt
    · exact ⟨⟨hplain, trivial, by simp only [Position.held, Position.total]; omega⟩, le_rfl⟩
    · have hlost := sound_lost hplain h₀ hlt.le le_rfl hk
      rwa [Nat.sub_self] at hlost
    · obtain ⟨hs, hle⟩ := ih (n - f.encode.length) hplain' (by omega)
      exact ⟨hs, by show (throwAway (n - f.encode.length) fs).2.total ≤ _; omega⟩

theorem advance_sound {k : ℕ} : ∀ (fs : List Frame) (n : ℕ), (∀ f ∈ fs, Plain f) → n + k = (wire fs).length →
    (advance r n fs).position.Sound k ∧ (advance r n fs).position.total ≤ (wire fs).length := by
  intro fs
  induction fs with
  | nil => exact fun n hplain hk => ⟨⟨hplain, trivial, hk⟩, le_rfl⟩
  | cons f fs ih =>
    intro n hplain hk
    have hplain' : ∀ g ∈ fs, Plain g := fun g hg => hplain g (by simp [hg])
    have hl : (wire (f :: fs)).length =
      f.encode.length + (wire fs).length := by rw [wire_cons, List.length_append]
    have hname : f.name.length ≤ f.encode.length := by simp [Frame.encode]; omega
    rw [advance]
    split_ifs with hlong
    · exact ⟨⟨hplain, trivial, hk⟩, le_rfl⟩
    · exact sound_lost hplain (by omega) hname (by omega) hk
    · exact ⟨⟨hplain, trivial, hk⟩, le_rfl⟩
    · exact throwAway_sound _ n hplain hk
    · exact ⟨⟨hplain, trivial, hk⟩, le_rfl⟩
    · obtain ⟨hs, hle⟩ := ih (n - f.encode.length) hplain' (by omega)
      exact ⟨hs, by show (advance r (n - f.encode.length) fs).position.total ≤ _; omega⟩

theorem Position.Sound.receive {pos : Position} {k : ℕ} (h : pos.Sound (m + k)) :
    (pos.receive r m).position.Sound k ∧ (pos.receive r m).position.total ≤ pos.total := by
  have hcount := h.count
  cases pos with
  | synced n fs => exact advance_sound fs (n + m) h.plain (by simp only [held, total] at hcount; omega)
  | lost g n fs =>
    simp only [held, total] at hcount
    rw [Position.receive]
    split_ifs with hfew
    · exact ⟨⟨h.plain, h.clear, by simp only [held, total]; omega⟩, le_rfl⟩
    · obtain ⟨hs, hle⟩ := advance_sound (k := k) fs (n + m - g.length) h.plain (by omega)
      exact ⟨hs, hle.trans (Nat.le_add_left _ _)⟩

/-- In a stream without quotes the parser always finds its way. -/
theorem Position.Sound.legible : ∀ (ms : List ℕ) (pos : Position), pos.Sound ms.sum → pos.total < 2 ^ 32 →
    pos.Legible r ms := by
  intro ms
  induction ms with
  | nil => exact fun _ _ _ => trivial
  | cons m ms ih =>
    intro pos h hlt
    rw [List.sum_cons] at h
    have hcount := h.count
    obtain ⟨hs, hle⟩ := h.receive (r := r)
    refine ⟨h.clear, by omega, ?_, ih _ hs (by omega)⟩
    generalize (pos.receive r m).position = pos' at hs hle
    cases pos' with
    | lost => trivial
    | synced n fs =>
      intro f hf
      have hmem := length_encode_le (List.mem_of_mem_head? hf)
      have hle : (wire fs).length ≤ pos.total := hle
      omega

/-- **What a rejected frame costs**: as long as the parser finds the next frame again, all frames
that pass the checks are handed over, in order, if and only if none of them is thrown away with a
rejected one or left behind it at the end. -/
theorem rejected_cost_iff (r : DiodeReceiver) (env : Env) (threadId : ℕ) (toSize : List UInt8 → ℕ) (s : Store)
    (frames : List Frame) (tail : List UInt8) (chunks : List Chunk) (lastLine : List UInt8)
    (hform : ∀ f ∈ frames, Formed f) (hdata : chunks.flatMap Chunk.data = wire frames)
    (hch : ∀ ch ∈ chunks, ch.data ≠ [] ∧ SizeLine toSize ch.line ch.data.length)
    (hlast : SizeLine toSize lastLine 0)
    (hleg : (Position.synced 0 frames).Legible r (chunks.map fun ch => ch.data.length)) :
    (∃ st, (∀ res, ClientService r env threadId toSize true 0 (chunked chunks lastLine ++ tail) s res ↔
      res = some st) ∧
      ((passing r frames).map callOf).Sublist st.calls) ↔
    (Position.synced 0 frames).Unharmed r (chunks.map fun ch => ch.data.length) := by
  obtain ⟨st, hst, hcalls, hend⟩ := clientService_handed env threadId s tail hform hdata hch hlast hleg
  have hiff := Position.unharmed_iff _ _ hend
  constructor
  · rintro ⟨st', hst', hsub⟩
    cases (hst _).mp ((hst' _).mpr rfl)
    rw [hcalls] at hsub
    exact hiff.mpr (show (passing r frames).length ≤ _ by simpa using hsub.length_le)
  · intro hun
    have heq := (Position.handedBy_sublist _ _).eq_of_length_le (hiff.mp hun)
    refine ⟨st, hst, ?_⟩
    rw [hcalls, heq]
    exact List.Sublist.refl _

/-! ### Examples -/

/-- A frame for a PV the receiver does not have room for. -/
def strayFrame : Frame := { smallFrame with index := 1 }

theorem smallFrame_formed : Formed smallFrame :=
  ⟨⟨by decide, by decide, rfl, rfl⟩, by decide, by decide, by decide⟩

theorem strayFrame_formed : Formed strayFrame :=
  ⟨⟨by decide, by decide, rfl, rfl⟩, by decide, by decide, by decide⟩

theorem smallFrame_plain : Plain smallFrame :=
  ⟨⟨by decide, by decide, by decide, by decide⟩, by decide⟩

theorem strayFrame_plain : Plain strayFrame :=
  ⟨⟨by decide, by decide, by decide, by decide⟩, by decide⟩

theorem sizeLine_sixty : SizeLine hexSize [51, 99] 60 := ⟨by decide, by decide, by decide, by decide⟩

theorem sizeLine_last : SizeLine hexSize [48] 0 := ⟨by decide, by decide, by decide, by decide⟩

/-- A rejected frame at the end of a chunk costs only itself. -/
theorem rejected_cost_last : ∃ st, (∀ res, ClientService (onePv 4) plainEnv 0 hexSize true 0
      (chunked [⟨[51, 99], smallFrame.encode ++ strayFrame.encode⟩, ⟨[49, 101], smallFrame.encode⟩]
        [48] ++ [])
      Store.start res ↔ res = some st) ∧
    ((passing (onePv 4) [smallFrame, strayFrame, smallFrame]).map callOf).Sublist st.calls := by
  refine (rejected_cost_iff (onePv 4) plainEnv 0 hexSize Store.start [smallFrame, strayFrame,
    smallFrame] [] _ [48]
    ?_ rfl ?_ sizeLine_last ?_).mpr (by decide)
  · simp [smallFrame_formed, strayFrame_formed]
  · rintro ch hch
    simp only [List.mem_cons, List.not_mem_nil, or_false] at hch
    rcases hch with rfl | rfl
    · exact ⟨by decide, sizeLine_sixty⟩
    · exact ⟨by decide, ⟨by decide, by decide, by decide, by decide⟩⟩
  · exact Position.Sound.legible _ _
      ⟨by simp [Position.ahead, smallFrame_plain, strayFrame_plain], trivial, by decide⟩
      (by decide)

/-- In one chunk with the frame behind it, it costs that frame. -/
theorem rejected_costs_more :
    ¬ ∀ (r : DiodeReceiver) (env : Env) (threadId : ℕ) (toSize : List UInt8 → ℕ) (s : Store)
      (frames : List Frame) (tail : List UInt8) (chunks : List Chunk) (lastLine : List UInt8),
      (∀ f ∈ frames, Formed f) →
      chunks.flatMap Chunk.data = wire frames →
      (∀ ch ∈ chunks, ch.data ≠ [] ∧ SizeLine toSize ch.line ch.data.length) → SizeLine toSize lastLine 0 →
      ∃ st, (∀ res, ClientService r env threadId toSize true 0 (chunked chunks lastLine ++ tail) s res ↔
        res = some st) ∧
        ((passing r frames).map callOf).Sublist st.calls := by
  intro hall
  have hform : ∀ f ∈ [strayFrame, smallFrame], Formed f := by simp [smallFrame_formed, strayFrame_formed]
  have hdata : [Chunk.mk [51, 99] (strayFrame.encode ++ smallFrame.encode)].flatMap Chunk.data =
      wire [strayFrame, smallFrame] := rfl
  have hch : ∀ ch ∈ [Chunk.mk [51, 99] (strayFrame.encode ++ smallFrame.encode)],
      ch.data ≠ [] ∧ SizeLine hexSize ch.line ch.data.length := by
    rintro ch hch
    simp only [List.mem_cons, List.not_mem_nil, or_false] at hch
    subst hch
    exact ⟨by decide, sizeLine_sixty⟩
  obtain ⟨st, hst, hcalls, -⟩ :=
    clientService_handed (r := onePv 4) plainEnv 0 Store.start [] hform hdata hch sizeLine_last
    (Position.Sound.legible _ _
      ⟨by simp [Position.ahead, smallFrame_plain, strayFrame_plain], trivial, by decide⟩
      (by decide))
  obtain ⟨st', hst', hsub⟩ :=
    hall (onePv 4) plainEnv 0 hexSize Store.start _ [] _ _ hform hdata hch sizeLine_last
  cases (hst _).mp ((hst' _).mpr rfl)
  rw [hcalls] at hsub
  exact absurd hsub.length_le (by decide)

end Hieratika.Receiver

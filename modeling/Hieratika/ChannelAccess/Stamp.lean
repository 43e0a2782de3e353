import Hieratika.ChannelAccess.Put
import Mathlib.Data.List.Flatten

/-!
# Where the time stamp arrives

The client takes the time stamp from behind the aligned value and sends it directly behind the
value; the server looks for it behind `dbr_size_n` bytes, if these are at least the payload less
eight. The places are the same if the value ends at a multiple of eight bytes, and for a single
string, of which only the characters are sent, if it has 39 of them (`put_carries_iff`). Without
the mark the sizes fulfil the same condition, and the time is overwritten by what is behind the
value.
-/

namespace Hieratika.ChannelAccess

open Foundations

variable {client server stamped v49Ok : Bool} {t : Dbr} {n request cid requestDependent size : ℕ}
  {pPayload : Memory}
variable {value : List (List UInt8)} {bytes : List UInt8} {msg : Message} {buffer : ℤ → UInt8}
  {record : Record}

/-! ### Types and sizes -/

theorem request_testBit (t : Dbr) (stamped : Bool) : (t.request stamped).testBit 15 = stamped := by
  cases t <;> cases stamped <;> decide

theorem clearFlag_request (t : Dbr) (stamped : Bool) : clearFlag (t.request stamped) = t.code := by
  cases t <;> cases stamped <;> decide

theorem ofCode_code (t : Dbr) : Dbr.ofCode t.code = some t := by
  cases t <;> rfl

theorem Dbr.size_pos (t : Dbr) : 0 < t.size := by
  cases t <;> decide

theorem length_swap (t : Dbr) (little : Bool) (e : List UInt8) : (t.swap little e).length = e.length := by
  unfold Dbr.swap
  split_ifs
  · rfl
  · exact List.length_reverse
  · rfl

/-- A number that is turned round twice. -/
theorem meaning_swap (t : Dbr) (client server : Bool) (e : List UInt8) :
    t.meaning server (t.swap server (t.swap client e)) = t.meaning client e := by
  unfold Dbr.meaning Dbr.swap
  by_cases ht : t = .string
  · simp only [if_pos ht]
  · simp only [if_neg ht]
    cases server
    · rfl
    · simp

theorem messageAlign_eq {n : ℕ} (h : n + 7 < 2 ^ 32) : messageAlign n = (n + 7) / 8 * 8 := by
  unfold messageAlign
  rw [u32_of_lt h]

theorem messageAlign_bounds {n : ℕ} (h : n + 7 < 2 ^ 32) : n ≤ messageAlign n ∧ messageAlign n < n + 8 ∧
    (8 ∣ n ↔ messageAlign n = n) ∧ 8 ∣ messageAlign n := by
  rw [messageAlign_eq h]
  omega

/-- The eight bytes that are added and taken away again. -/
theorem sub32_add_eight {a : ℕ} (h : a < 2 ^ 32) : sub32 (u32 (a + 8)) 8 = a := by
  unfold sub32 u32
  omega

theorem sub32_self (a : ℕ) : sub32 a a = 0 := by
  unfold sub32
  rw [Nat.add_sub_cancel_left]
  rfl

/-! ### The message -/

theorem insertRequestHeader_read {payloadSize dataType nElem : ℕ} {hdr : CaHdr}
    (h : insertRequestHeader request payloadSize dataType nElem cid requestDependent v49Ok = some hdr) :
    hdr.read.m_postsize = (if dataType.testBit 15 then u32 (payloadSize + 8) else payloadSize) ∧
      hdr.read.m_dataType = clearFlag dataType ∧ hdr.read.m_count = nElem := by
  unfold insertRequestHeader at h
  dsimp only at h
  generalize (if dataType.testBit 15 = true then u32 (payloadSize + 8) else payloadSize) = p at h ⊢
  split_ifs at h
  · cases h
    exact ⟨rfl, rfl, rfl⟩
  · cases h
    exact ⟨rfl, rfl, rfl⟩

/-- What is known of a message that has been inserted. -/
structure Sent (client : Bool) (t : Dbr) (stamped : Bool) (n : ℕ) (pPayload : Memory) (v49Ok : Bool)
    (size : ℕ) (bytes : List UInt8) (msg : Message) : Prop where
  value : insertValue client t n pPayload v49Ok = some (size, bytes)
  postsize : msg.hdr.read.m_postsize = if stamped then u32 (messageAlign size + 8) else messageAlign size
  dataType : msg.hdr.read.m_dataType = t.code
  count : msg.hdr.read.m_count = n
  body : msg.body = bytes ++ (if stamped then readAt pPayload (messageAlign size) 8 else []) ++
    List.replicate (sub32 (if stamped then u32 (messageAlign size + 8) else messageAlign size)
      (if stamped then u32 (size + 8) else size)) 0

theorem insertRequestWithPayLoad_sent
    (h : insertRequestWithPayLoad client request t stamped n cid requestDependent pPayload v49Ok = some msg) :
    ∃ size bytes, Sent client t stamped n pPayload v49Ok size bytes msg := by
  unfold insertRequestWithPayLoad at h
  simp only [Option.bind_eq_bind, Option.bind_eq_some_iff, request_testBit, Option.some.injEq] at h
  obtain ⟨⟨size, bytes⟩, hvalue, hdr, hhdr, rfl⟩ := h
  obtain ⟨hpost, htype, hcount⟩ := insertRequestHeader_read hhdr
  rw [request_testBit] at hpost
  rw [clearFlag_request] at htype
  exact ⟨size, bytes, hvalue, hpost, htype, hcount, rfl⟩

/-- The value of a message: a string without what is behind its NUL, or all elements. -/
theorem insertValue_eq (hn : 1 ≤ n) (h : insertValue client t n pPayload v49Ok = some (size, bytes)) :
    (n = 1 ∧ t = .string ∧ size = ((readAt pPayload 0 40).takeWhile (· ≠ 0)).length + 1 ∧ size ≤ 40 ∧
        bytes = readAt pPayload 0 size) ∨
      (¬ (n = 1 ∧ t = .string) ∧ size = n * t.size ∧ n * t.size + 10 < 2 ^ 32 ∧
        bytes = (List.range n).flatMap fun i => t.swap client (readAt pPayload (i * t.size) t.size)) := by
  have hmax : (if v49Ok then 0xffffffff else maxTcp - 16) ≤ 2 ^ 32 - 1 := by
    cases v49Ok <;> decide
  unfold insertValue at h
  dsimp only at h
  generalize (if v49Ok then 0xffffffff else maxTcp - 16) = maxBytes at h hmax
  split_ifs at h with h₁ ht hlen hge
  · cases h
    have hle := (List.takeWhile_prefix (fun b : UInt8 => decide (b ≠ 0))
      (l := readAt pPayload 0 40)).length_le
    rw [length_readAt] at hle
    exact Or.inl ⟨h₁, ht, rfl, by omega, rfl⟩
  · cases h
    subst h₁
    refine Or.inr ⟨fun h => ht h.2, (Nat.one_mul _).symm, ?_, by simp⟩
    cases t <;> decide
  · cases h
    have hle : (n + 1) * t.size ≤ maxBytes - 8 - t.size :=
      (Nat.le_div_iff_mul_le t.size_pos).mp (not_le.mp hge)
    have hpos := t.size_pos
    rw [Nat.add_mul, Nat.one_mul] at hle
    exact Or.inr ⟨fun h => h₁ h.1, Dbr.sizeN_of_lt hn (by omega), by omega, rfl⟩

/-! ### The memories -/

theorem getElem?_readInt {a : ℤ} {j k : ℕ} (h : j < k) :
    (readInt buffer a k)[j]? = some (buffer (a + j)) := by
  simp [readInt, List.getElem?_range h]

/-- Elements of one length, as they lie one behind the other. -/
theorem getD_flatMap {g : ℕ → List UInt8} {s : ℕ} (hg : ∀ i, (g i).length = s) {j : ℕ} (hj : j < s) :
    ∀ {n i : ℕ}, i < n →
    ((List.range n).flatMap g).getD (i * s + j) 0 = (g i).getD j 0 := by
  intro n
  have hlen : ∀ m, ((List.range m).flatMap g).length = m * s := fun m => by
    rw [List.length_flatMap]
    simp [hg]
  induction n with
  | zero => exact fun h => absurd h (Nat.not_lt_zero _)
  | succ n ih =>
    intro i hi
    rw [List.range_succ, List.flatMap_append, List.flatMap_singleton]
    rcases Nat.lt_succ_iff_lt_or_eq.mp hi with hlt | rfl
    · have hle : (i + 1) * s ≤ n * s := Nat.mul_le_mul_right s hlt
      rw [Nat.add_mul, Nat.one_mul] at hle
      rw [List.getD_append _ _ _ _ (by rw [hlen]; omega), ih hlt]
    · rw [List.getD_append_right _ _ _ _ (by rw [hlen]; omega), hlen, Nat.add_sub_cancel_left]

/-- The elements in memory, read one by one. -/
theorem eq_map_readAt {m : Memory} {s : ℕ} : ∀ {l : List (List UInt8)} {a : ℕ}, (∀ e ∈ l, e.length = s) →
    readAt m a (l.length * s) = l.flatten → l = (List.range l.length).map fun i =>
      readAt m (a + i * s) s := by
  intro l
  induction l with
  | nil => exact fun _ _ => rfl
  | cons e l ih =>
    intro a hl h
    have he : e.length = s := hl e (by simp)
    rw [List.length_cons, Nat.add_mul, Nat.one_mul, Nat.add_comm, readAt_add, List.flatten_cons] at h
    obtain ⟨h₁, h₂⟩ := List.append_inj h (by rw [length_readAt, he])
    rw [List.length_cons, List.range_succ_eq_map, List.map_cons, List.map_map, Nat.zero_mul, Nat.add_zero, h₁]
    congr 1
    refine (ih (fun e he => hl e (by simp [he])) h₂).trans (List.map_congr_left fun i _ => ?_)
    simp only [Function.comp, Nat.succ_eq_add_one]
    congr 1
    ring

/-! ### With the mark -/

/-- What the server makes of the message. -/
theorem Sent.writeAction (h : Sent client t stamped n pPayload v49Ok size bytes msg) :
    writeAction server msg.hdr.read buffer record =
      { value := (List.range n).map fun i => t.swap server (readInt buffer ((i * t.size : ℕ) : ℤ) t.size)
        time :=
          if sub32 (if stamped then u32 (messageAlign size + 8) else messageAlign size) 8 ≤ t.sizeN n then
            readInt buffer (toInt32 (t.sizeN n)) 8
          else record.time } := by
  unfold ChannelAccess.writeAction
  rw [h.dataType, ofCode_code]
  simp only [h.postsize, h.count]

/-- The end of the value is where both look for the time stamp. -/
def Aligned (t : Dbr) (value : List (List UInt8)) : Prop :=
  if value.length = 1 ∧ t = .string then (value.flatten.takeWhile (· ≠ 0)).length = 39
  else 8 ∣ value.length * t.size

instance (t : Dbr) (value : List (List UInt8)) : Decidable (Aligned t value) := by
  unfold Aligned
  infer_instance

/-- Then the whole value is sent, and nothing is filled in behind it. -/
theorem Aligned.sent (hal : Aligned t value) (hn : 1 ≤ value.length)
    (hvalue : readAt pPayload 0 (value.length * t.size) = value.flatten)
    (h : Sent client t stamped value.length pPayload v49Ok size bytes msg) :
    size = value.length * t.size ∧ messageAlign size = size ∧ size + 7 < 2 ^ 32 ∧
      bytes = (List.range value.length).flatMap fun i =>
        t.swap client (readAt pPayload (i * t.size) t.size) := by
  unfold Aligned at hal
  rcases insertValue_eq hn h.value with ⟨h₁, rfl, hsize, -, hbytes⟩ | ⟨hnot, rfl, hlt, hbytes⟩
  · rw [if_pos ⟨h₁, rfl⟩, ← hvalue, h₁] at hal
    have h40 : size = 40 := by
      rw [hsize]
      exact congrArg (· + 1) hal
    rw [hbytes, h40, h₁]
    exact ⟨rfl, rfl, by omega, rfl⟩
  · rw [if_neg hnot] at hal
    exact ⟨rfl, (messageAlign_bounds (by omega)).2.2.1.mp hal, by omega, hbytes⟩

theorem length_flatMap_swap (little : Bool) (m : Memory) :
    ((List.range n).flatMap fun i => t.swap little (readAt m (i * t.size) t.size)).length = n * t.size := by
  rw [List.length_flatMap]
  simp [length_swap]

/-- The value and the time stamp arrive. -/
theorem endToEnd_of_aligned (hn : 1 ≤ value.length) (hsize : ∀ e ∈ value, e.length = t.size)
    (hlt : value.length * t.size < 2 ^ 31) (hal : Aligned t value) : EndToEnd t true value v49Ok := by
  intro client server request cid requestDependent pPayload timestamp msg buffer record hvalue hstamp
    hinsert hat
  obtain ⟨size, bytes, hsent⟩ := insertRequestWithPayLoad_sent hinsert
  obtain ⟨rfl, halign, hroom, hbytes⟩ := hal.sent hn hvalue hsent
  have hbody := hsent.body
  simp only [if_true, halign, sub32_self, List.replicate_zero, List.append_nil, hstamp] at hbody
  have hlen : bytes.length = value.length * t.size := hbytes ▸ length_flatMap_swap client pPayload
  have hts : timestamp.length = 8 := by rw [← hstamp, length_readAt]
  have hsizeN : t.sizeN value.length = value.length * t.size := Dbr.sizeN_of_lt hn (by omega)
  rw [hsent.writeAction]
  simp only [if_true, halign, hsizeN]
  rw [sub32_add_eight (by omega), if_pos le_rfl, toInt32, if_pos hlt]
  constructor
  · have hel := eq_map_readAt hsize hvalue
    have hmap : value.map (t.meaning client) = (List.range value.length).map fun i =>
        t.meaning client (readAt pPayload (i * t.size) t.size) := by
      conv_lhs => rw [hel, List.map_map]
      simp only [Nat.zero_add, Function.comp_def]
    rw [hmap, List.map_map]
    refine List.map_congr_left fun i hi => ?_
    rw [List.mem_range] at hi
    have hle : (i + 1) * t.size ≤ value.length * t.size := Nat.mul_le_mul_right _ hi
    rw [Nat.add_mul, Nat.one_mul] at hle
    have hget : readInt buffer ((i * t.size : ℕ) : ℤ) t.size =
        t.swap client (readAt pPayload (i * t.size) t.size) := by
      refine List.ext_getElem (by simp [readInt, length_swap]) fun j hj _ => ?_
      simp only [readInt, List.length_map, List.length_range] at hj
      simp only [readInt, List.getElem_map, List.getElem_range]
      rw [← Nat.cast_add, hat _ (by rw [hbody, List.length_append]; omega), hbody,
        List.getD_append _ _ _ _ (by omega), hbytes,
        getD_flatMap (fun i => by rw [length_swap, length_readAt]) hj hi, List.getD_eq_getElem]
    show t.meaning server (t.swap server (readInt buffer ((i * t.size : ℕ) : ℤ) t.size)) = _
    rw [hget, meaning_swap]
  · refine List.ext_getElem (by simp [readInt, hts]) fun j hj hj' => ?_
    simp only [readInt, List.getElem_map, List.getElem_range]
    rw [← Nat.cast_add, hat _ (by rw [hbody, List.length_append]; omega), hbody,
      List.getD_append_right _ _ _ _ (by omega), hlen, Nat.add_sub_cancel_left, List.getD_eq_getElem _ _ hj']

/-! ### And only then -/

/-- The client inserts the request, wherever the value lies. -/
def Inserts (t : Dbr) (stamped : Bool) (value : List (List UInt8)) (v49Ok : Bool) : Prop :=
  ∀ (client : Bool) (request cid requestDependent : ℕ) (pPayload : Memory),
    readAt pPayload 0 (value.length * t.size) = value.flatten →
    ∃ msg, insertRequestWithPayLoad client request t stamped value.length cid requestDependent pPayload
      v49Ok = some msg

/-- The bytes `bs`, then eight of `01`, then zeros. -/
def onesBehind (bs : List UInt8) : Memory :=
  fun k => if k < bs.length then bs.getD k 0 else if k < bs.length + 8 then 1 else 0

theorem readAt_onesBehind (bs : List UInt8) : readAt (onesBehind bs) 0 bs.length = bs := by
  refine List.ext_getElem length_readAt fun k hk hk' => ?_
  simp only [readAt, onesBehind, List.getElem_map, List.getElem_range, Nat.zero_add]
  rw [if_pos hk', List.getD_eq_getElem]

theorem readAt_onesBehind_length (bs : List UInt8) :
    readAt (onesBehind bs) bs.length 8 = List.replicate 8 1 := by
  refine List.ext_getElem (by simp) fun k hk _ => ?_
  rw [length_readAt] at hk
  simp only [readAt, onesBehind, List.getElem_map, List.getElem_range, List.getElem_replicate]
  rw [if_neg (by omega), if_pos (by omega)]

/-- The message among zeros. -/
def Message.alone (msg : Message) : ℤ → UInt8 := fun k => if 0 ≤ k then msg.body.getD k.toNat 0 else 0

theorem Message.alone_at (msg : Message) : msg.At msg.alone := fun k _ => by
  simp [alone]

theorem length_flatten_eq {s : ℕ} (h : ∀ e ∈ value, e.length = s) :
    value.flatten.length = value.length * s := by
  rw [List.length_flatten, List.map_congr_left h, List.map_const', List.sum_replicate_nat]

/-- Without the mark the sizes look as if there was a time stamp. -/
theorem Sent.taken (hn : 1 ≤ n) (h : Sent client t false n pPayload v49Ok size bytes msg) :
    sub32 (messageAlign size) 8 ≤ t.sizeN n := by
  rcases insertValue_eq hn h.value with ⟨rfl, rfl, hsize, hle, -⟩ | ⟨-, hsize, hlt, -⟩
  · have hal := messageAlign_bounds (n := size) (by omega)
    have h40 : Dbr.string.sizeN 1 = 40 := rfl
    rw [sub32_of_le (by omega) (by omega), h40]
    omega
  · have hal := messageAlign_bounds (n := size) (by omega)
    have hpos : 1 ≤ n * t.size := Nat.mul_pos hn t.size_pos
    have hN : t.sizeN n = n * t.size := Dbr.sizeN_of_lt hn (by omega)
    rw [sub32_of_le (by omega) (by omega), hN]
    omega

/-- In which place the last byte of a time stamp is a zero. -/
theorem Sent.string_last (h : Sent client .string true 1 pPayload v49Ok size bytes msg) (hsize : size < 40)
    (hlen : bytes.length = size) : msg.alone 47 = 0 := by
  have hal := messageAlign_bounds (n := size) (by omega)
  have hpost : u32 (messageAlign size + 8) = messageAlign size + 8 := u32_of_lt (by omega)
  have hbody := h.body
  simp only [if_true, hpost] at hbody
  rw [u32_of_lt (by omega), sub32_of_le (by omega) (by omega)] at hbody
  show (if (0 : ℤ) ≤ 47 then msg.body.getD 47 0 else 0) = 0
  rw [if_pos (by decide), hbody, List.getD_append_right _ _ _ _ (by simp; omega)]
  by_cases hlt : 47 - (bytes ++ readAt pPayload (messageAlign size) 8).length <
      (List.replicate (messageAlign size + 8 - (size + 8)) (0 : UInt8)).length
  · rw [List.getD_eq_getElem _ _ hlt, List.getElem_replicate]
  · rw [List.getD_eq_default _ _ (not_lt.mp hlt)]

theorem aligned_of_endToEnd (hn : 1 ≤ value.length) (hsize : ∀ e ∈ value, e.length = t.size)
    (hins : Inserts t stamped value v49Ok) (h : EndToEnd t stamped value v49Ok) :
    stamped ∧ value.length * t.size < 2 ^ 31 ∧ Aligned t value := by
  have hflat := length_flatten_eq hsize
  have hvalue := readAt_onesBehind value.flatten
  have hones := readAt_onesBehind_length value.flatten
  rw [hflat] at hvalue hones
  obtain ⟨msg, hmsg⟩ := hins false 0 0 0 _ hvalue
  obtain ⟨size, bytes, hsent⟩ := insertRequestWithPayLoad_sent hmsg
  have hrun := fun record => h false false 0 0 0 _ _ msg msg.alone record hvalue hones hmsg msg.alone_at
  cases stamped with
  | false =>
    have hread : ∀ time, readInt msg.alone (toInt32 (t.sizeN value.length)) 8 = time := fun time => by
      have := hrun ⟨[], time⟩
      rw [hsent.writeAction] at this
      simpa [hsent.taken hn] using this
    exact absurd ((hread (List.replicate 8 0)).symm.trans (hread (List.replicate 8 1))) (by decide)
  | true =>
    have htime := hrun ⟨[], List.replicate 8 0⟩
    rw [hsent.writeAction] at htime
    simp only [if_true] at htime
    have htime := htime.2
    refine ⟨rfl, ?_⟩
    unfold Aligned
    rcases insertValue_eq hn hsent.value with ⟨h₁, rfl, hstr, hle, hbytes⟩ | ⟨hnot, rfl, hlt, hbytes⟩
    · rw [if_pos ⟨h₁, rfl⟩, h₁]
      refine ⟨by decide, ?_⟩
      rw [h₁] at hvalue hsent htime
      rw [← hvalue]
      by_contra hne
      have hlt : size < 40 := by
        have hne : size ≠ 40 := fun h40 => hne (by rw [h40] at hstr; exact (Nat.succ.inj hstr).symm)
        omega
      have hal := messageAlign_bounds (n := size) (by omega)
      have hlast := hsent.string_last hlt (by rw [hbytes, length_readAt])
      have h40 : Dbr.string.sizeN 1 = 40 := rfl
      rw [sub32_add_eight (by omega), h40, if_pos (by omega)] at htime
      have hbyte := congrArg (fun l => l[7]?) htime
      rw [getElem?_readInt (by decide), show toInt32 40 + ((7 : ℕ) : ℤ) = 47 by decide, hlast] at hbyte
      exact absurd hbyte (by decide)
    · rw [if_neg hnot]
      have hal := messageAlign_bounds (n := value.length * t.size) (by omega)
      have hN : t.sizeN value.length = value.length * t.size := Dbr.sizeN_of_lt hn (by omega)
      rw [sub32_add_eight (by omega), hN] at htime
      by_cases hdvd : 8 ∣ value.length * t.size
      · refine ⟨?_, hdvd⟩
        by_contra hge
        rw [if_pos (by omega)] at htime
        have hbyte := congrArg (fun l => l[0]?) htime
        rw [getElem?_readInt (by decide), toInt32, if_neg hge, Message.alone, if_neg (by omega)] at hbyte
        exact absurd hbyte (by decide)
      · rw [if_neg (by omega)] at htime
        exact absurd htime (by decide)

/-- **The put carries the time stamp** of a request that the client inserts if and only if it is
marked, the value has less than `2 ^ 31` bytes, and it ends where the time stamp is looked for. -/
theorem put_carries_iff (t : Dbr) (stamped : Bool) (value : List (List UInt8)) (v49Ok : Bool)
    (hn : 1 ≤ value.length)
    (hsize : ∀ e ∈ value, e.length = t.size) (hins : Inserts t stamped value v49Ok) :
    EndToEnd t stamped value v49Ok ↔ stamped ∧ value.length * t.size < 2 ^ 31 ∧ Aligned t value := by
  constructor
  · exact aligned_of_endToEnd hn hsize hins
  · rintro ⟨rfl, hlt, hal⟩
    exact endToEnd_of_aligned hn hsize hlt hal

theorem inserts_one (t : Dbr) (ht : t ≠ .string) (stamped : Bool) (e : List UInt8) (v49Ok : Bool) :
    Inserts t stamped [e] v49Ok := by
  intro client request cid requestDependent pPayload _
  have hsmall :
    (if (t.request stamped).testBit 15 then u32 (messageAlign t.size + 8) else messageAlign t.size) < 0xffff ∧
      1 < 0xffff := by
    cases t <;> cases stamped <;> decide
  have hhdr : ∃ hdr, insertRequestHeader request (messageAlign t.size) (t.request stamped) 1 cid
    requestDependent v49Ok =
      some hdr := ⟨_, if_pos hsmall⟩
  obtain ⟨hdr, hhdr⟩ := hhdr
  simp only [insertRequestWithPayLoad, insertValue, List.length_singleton, if_true, if_neg ht,
    Option.bind_eq_bind,
    Option.bind_some, hhdr]
  exact ⟨_, rfl⟩

/-- A single double. -/
theorem put_carries_double : EndToEnd .double true [[0, 0, 0, 0, 0, 0, 240, 63]] true :=
  (put_carries_iff .double true [[0, 0, 0, 0, 0, 0, 240, 63]] true (by decide) (by decide)
    (inserts_one _ (by decide) _ _ _)).mpr ⟨rfl, by decide, by decide⟩

/-- A single long loses its time stamp. -/
theorem put_loses_long :
    ¬ ∀ (t : Dbr) (stamped : Bool) (value : List (List UInt8)) (v49Ok : Bool), 1 ≤ value.length →
    (∀ e ∈ value, e.length = t.size) → Inserts t stamped value v49Ok → EndToEnd t stamped value v49Ok := by
  intro h
  have hlong :=
    aligned_of_endToEnd (by decide) (by decide) (inserts_one .long (by decide) true [1, 0, 0, 0] true)
    (h .long true [[1, 0, 0, 0]] true (by decide) (by decide) (inserts_one _ (by decide) _ _ _))
  exact absurd hlong.2.2 (by decide)

end Hieratika.ChannelAccess

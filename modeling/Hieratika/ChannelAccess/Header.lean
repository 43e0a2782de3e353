import Hieratika.ChannelAccess.Framed

/-!
# The header on the wire

`insertRequestHeader` pushes the fields of a message header in the order of the network; the large form
has the size and the count again, as words, behind a size of `0xffff`. `camessage` reads them from the
front of its buffer.

## What is proved

A header is read as it was written, with whatever behind it (`readHeader_encode`), and as soon as it
is read nothing that arrives later changes it (`readHeader_more`).
-/

namespace Hieratika.ChannelAccess

open Foundations

/-! ### Words in the order of the network -/

/-- The number that bytes stand for, most significant first. -/
def ofBe (bs : List UInt8) : ℕ := ofLe bs.reverse

def be16 (n : ℕ) : List UInt8 := [byteOf n 1, byteOf n 0]

def be32 (n : ℕ) : List UInt8 := [byteOf n 3, byteOf n 2, byteOf n 1, byteOf n 0]

@[simp] theorem length_be16 (n : ℕ) : (be16 n).length = 2 := rfl

@[simp] theorem length_be32 (n : ℕ) : (be32 n).length = 4 := rfl

theorem ofBe_be16 {n : ℕ} (h : n < 2 ^ 16) : ofBe (be16 n) = n := by
  simp only [ofBe, be16, List.reverse_cons, List.reverse_nil, List.nil_append, List.cons_append, ofLe,
    toNat_byteOf]
  omega

theorem ofBe_be32 {n : ℕ} (h : n < 2 ^ 32) : ofBe (be32 n) = n := ofLe_le32 h

/-- The field of `n` bytes from place `a`: `ntohs` and `ntohl`. -/
def field (l : List UInt8) (a n : ℕ) : ℕ := ofBe ((l.drop a).take n)

theorem field_more {l : List UInt8} {a n : ℕ} (h : a + n ≤ l.length) (tail : List UInt8) :
    field (l ++ tail) a n = field l a n := by
  rw [field, field, List.drop_append_of_le_length (by omega), List.take_append_of_le_length]
  rw [List.length_drop]
  omega

/-! ### The header -/

/-- The bytes that `insertRequestHeader` pushes. -/
def CaHdr.encode (h : CaHdr) : List UInt8 :=
  be16 h.m_cmmd ++ (be16 h.m_postsize ++ (be16 h.m_dataType ++ (be16 h.m_count ++ (be32 h.m_cid ++
    (be32 h.m_available ++ match h.large with
      | none => []
      | some (payloadSize, nElem) => be32 payloadSize ++ be32 nElem)))))

/-- The size of the header. -/
def CaHdr.size (h : CaHdr) : ℕ := if h.large.isSome then 24 else 16

/-- The fields have the widths of `caHdr`, and the large form is marked. -/
structure CaHdr.Fits (h : CaHdr) : Prop where
  m_cmmd : h.m_cmmd < 2 ^ 16
  m_postsize : h.m_postsize < 2 ^ 16
  m_dataType : h.m_dataType < 2 ^ 16
  m_count : h.m_count < 2 ^ 16
  m_cid : h.m_cid < 2 ^ 32
  m_available : h.m_available < 2 ^ 32
  small : h.large = none → h.m_postsize ≠ 0xffff
  large : ∀ payloadSize nElem, h.large = some (payloadSize, nElem) →
    h.m_postsize = 0xffff ∧ payloadSize < 2 ^ 32 ∧ nElem < 2 ^ 32

/-- The header at the front of the buffer, and its size; `none` when it is not there yet. -/
def readHeader (v49 : Bool) (l : List UInt8) : Option (CaHdrLargeArray × ℕ) :=
  if l.length < 16 then none
  else
    let msg : CaHdrLargeArray :=
      ⟨field l 0 2, field l 2 2, field l 4 2, field l 6 2, field l 8 4, field l 12 4⟩
    if v49 = true ∧ msg.m_postsize = 0xffff then
      if l.length < 24 then none
      else some ({ msg with m_postsize := field l 16 4, m_count := field l 20 4 }, 24)
    else some (msg, 16)

variable {v49 : Bool} {l : List UInt8} {x : CaHdrLargeArray × ℕ} {h : CaHdr}

theorem readHeader_more (hread : readHeader v49 l = some x) (tail : List UInt8) :
    readHeader v49 (l ++ tail) = some x := by
  unfold readHeader at hread ⊢
  have hlen : (l ++ tail).length = l.length + tail.length := List.length_append
  by_cases h16 : l.length < 16
  · rw [if_pos h16] at hread
    cases hread
  · rw [if_neg h16] at hread
    rw [if_neg (by omega), field_more (by omega), field_more (by omega), field_more (by omega),
      field_more (by omega), field_more (by omega), field_more (by omega)]
    dsimp only at hread ⊢
    by_cases hlarge : v49 = true ∧ field l 2 2 = 0xffff
    · rw [if_pos hlarge] at hread ⊢
      by_cases h24 : l.length < 24
      · rw [if_pos h24] at hread
        cases hread
      · rw [if_neg h24] at hread
        rw [if_neg (by omega), field_more (by omega), field_more (by omega)]
        exact hread
    · rw [if_neg hlarge] at hread ⊢
      exact hread

theorem readHeader_size (hread : readHeader v49 l = some x) : 16 ≤ x.2 ∧ x.2 ≤ 24 ∧ x.2 ≤ l.length := by
  unfold readHeader at hread
  dsimp only at hread
  split_ifs at hread with h16 hlarge h24
  · cases hread
    exact ⟨by omega, le_rfl, not_lt.mp h24⟩
  · cases hread
    exact ⟨le_rfl, by omega, not_lt.mp h16⟩

theorem CaHdr.length_encode (h : CaHdr) : h.encode.length = h.size := by
  unfold CaHdr.encode CaHdr.size
  cases h.large <;> rfl

/-- The fields that both forms have. -/
theorem field_encode (hfits : h.Fits) (rest : List UInt8) :
    field (h.encode ++ rest) 0 2 = h.m_cmmd ∧ field (h.encode ++ rest) 2 2 = h.m_postsize ∧
      field (h.encode ++ rest) 4 2 = h.m_dataType ∧ field (h.encode ++ rest) 6 2 = h.m_count ∧
      field (h.encode ++ rest) 8 4 = h.m_cid ∧ field (h.encode ++ rest) 12 4 = h.m_available := by
  obtain ⟨cmmd, postsize, dataType, count, cid, available, large⟩ := h
  exact ⟨ofBe_be16 hfits.m_cmmd, ofBe_be16 hfits.m_postsize, ofBe_be16 hfits.m_dataType,
    ofBe_be16 hfits.m_count, ofBe_be32 hfits.m_cid, ofBe_be32 hfits.m_available⟩

/-- **A header is read as it was written.** -/
theorem readHeader_encode (hfits : h.Fits) (rest : List UInt8) :
    readHeader true (h.encode ++ rest) = some (h.read, h.size) := by
  have hlen : (h.encode ++ rest).length = h.size + rest.length := by rw [List.length_append, h.length_encode]
  obtain ⟨hcmmd, hpostsize, htype, hcount, hcid, havailable⟩ := field_encode hfits rest
  unfold readHeader
  rw [hcmmd, hpostsize, htype, hcount, hcid, havailable]
  cases hlarge : h.large with
  | none =>
    have hsize : h.size = 16 := by rw [CaHdr.size, hlarge]; rfl
    rw [if_neg (by omega), if_neg (fun hmark => hfits.small hlarge hmark.2), CaHdr.read, hlarge, hsize]
  | some words =>
    obtain ⟨payloadSize, nElem⟩ := words
    obtain ⟨hmark, hpayload, hn⟩ := hfits.large payloadSize nElem hlarge
    have hsize : h.size = 24 := by rw [CaHdr.size, hlarge]; rfl
    have hwords : field (h.encode ++ rest) 16 4 = payloadSize ∧ field (h.encode ++ rest) 20 4 = nElem := by
      rw [CaHdr.encode, hlarge]
      exact ⟨ofBe_be32 hpayload, ofBe_be32 hn⟩
    rw [if_neg (by omega), if_pos ⟨rfl, hmark⟩, if_neg (by omega), hwords.1, hwords.2, CaHdr.read,
      hlarge, hsize]
    dsimp only
    rw [if_pos hmark]

/-- What `insertRequestHeader` makes of words. -/
theorem insertRequestHeader_fits {request payloadSize dataType nElem cid requestDependent : ℕ}
    {v49Ok : Bool} (hrequest : request < 2 ^ 16) (hpayload : payloadSize < 2 ^ 32)
    (htype : clearFlag dataType < 2 ^ 16) (hn : nElem < 2 ^ 32) (hcid : cid < 2 ^ 32)
    (hdependent : requestDependent < 2 ^ 32)
    (hinsert : insertRequestHeader request payloadSize dataType nElem cid requestDependent v49Ok = some h) :
    h.Fits := by
  have hsize : (if dataType.testBit 15 then u32 (payloadSize + 8) else payloadSize) < 2 ^ 32 := by
    split_ifs
    · exact u32_lt _
    · exact hpayload
  unfold insertRequestHeader at hinsert
  dsimp only at hinsert
  generalize (if dataType.testBit 15 = true then u32 (payloadSize + 8) else payloadSize) = p at hinsert hsize
  split_ifs at hinsert with hsmall
  · cases hinsert
    exact {
      m_cmmd := hrequest
      m_postsize := hsmall.1.trans (by omega)
      m_dataType := htype
      m_count := hsmall.2.trans (by omega)
      m_cid := hcid
      m_available := hdependent
      small := fun _ => hsmall.1.ne
      large := fun _ _ hnone => by cases hnone }
  · cases hinsert
    exact {
      m_cmmd := hrequest
      m_postsize := (by omega : (0xffff : ℕ) < 2 ^ 16)
      m_dataType := htype
      m_count := (by omega : 0 < 2 ^ 16)
      m_cid := hcid
      m_available := hdependent
      small := fun hnone => by cases hnone
      large := fun _ _ hsome => by
        cases hsome
        exact ⟨rfl, hsize, hn⟩ }

end Hieratika.ChannelAccess

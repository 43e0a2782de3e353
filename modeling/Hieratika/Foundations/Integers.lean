import Hieratika.Foundations.Word
import Mathlib.Data.Int.ModEq
import Mathlib.Tactic.Linarith
import Mathlib.Tactic.Ring

/-!
# Integers in little-endian bytes

`intBytes w v` are the `w` low bytes of the integer `v` in two's complement, `ofBytes` the integer that
bytes stand for, with or without sign, and `InRange` the integers that fit. An integer that fits is what
its bytes stand for, and no other bytes of that number stand for it (`ofBytes_eq_iff`). More bytes of an
integer are its bytes and the bytes of the quotient (`intBytes_add`), which all are copies of its sign
where the integer is small (`intBytes_extend`).
-/

namespace Hieratika.Foundations

/-- The `w` low bytes of an integer. -/
def intBytes : ℕ → ℤ → List UInt8
  | 0, _ => []
  | w + 1, v => UInt8.ofNat (v % 256).toNat :: intBytes w (v / 256)

/-- The integer that some bytes stand for. -/
def ofBytes (signed : Bool) (bs : List UInt8) : ℤ :=
  if signed = true ∧ (256 : ℤ) ^ bs.length ≤ 2 * ofLe bs then (ofLe bs : ℤ) - 256 ^ bs.length else ofLe bs

/-- The integers of `w` bytes. -/
def InRange (signed : Bool) (w : ℕ) (v : ℤ) : Prop :=
  if signed then -256 ^ w ≤ 2 * v ∧ 2 * v < 256 ^ w else 0 ≤ v ∧ v < 256 ^ w

instance (signed : Bool) (w : ℕ) (v : ℤ) : Decidable (InRange signed w v) := by
  unfold InRange
  infer_instance

/-- The byte that repeats the sign. -/
def signByte (v : ℤ) : UInt8 := if v < 0 then 255 else 0

variable {signed : Bool} {w d : ℕ} {v : ℤ} {bs cs : List UInt8}

@[simp] theorem length_intBytes : ∀ (w : ℕ) (v : ℤ), (intBytes w v).length = w
  | 0, _ => rfl
  | w + 1, v => by rw [intBytes, List.length_cons, length_intBytes w]

/-- The bytes stand for the integer up to a multiple of `256 ^ w`. -/
theorem exists_eq_ofLe : ∀ (w : ℕ) (v : ℤ), ∃ q : ℤ, v = ofLe (intBytes w v) + 256 ^ w * q
  | 0, v => ⟨v, by simp [intBytes, ofLe]⟩
  | w + 1, v => by
    obtain ⟨q, hq⟩ := exists_eq_ofLe w (v / 256)
    have hlow : ((UInt8.ofNat (v % 256).toNat).toNat : ℤ) = v % 256 := by
      rw [UInt8.toNat_ofNat']
      omega
    refine ⟨q, ?_⟩
    calc v = v % 256 + 256 * (v / 256) := (Int.emod_add_mul_ediv v 256).symm
      _ = v % 256 + 256 * (ofLe (intBytes w (v / 256)) + 256 ^ w * q) := by rw [← hq]
      _ = ofLe (intBytes (w + 1) v) + 256 ^ (w + 1) * q := by
        rw [intBytes, ofLe]
        push_cast
        rw [hlow]
        ring

theorem ofLe_intBytes (w : ℕ) (v : ℤ) : (ofLe (intBytes w v) : ℤ) = v % 256 ^ w := by
  obtain ⟨q, hq⟩ := exists_eq_ofLe w v
  have hlt := ofLe_lt (intBytes w v)
  rw [length_intBytes] at hlt
  have hmod : v % 256 ^ w = (ofLe (intBytes w v) : ℤ) % 256 ^ w := by
    conv_lhs => rw [hq]
    rw [Int.add_mul_emod_self_left]
  rw [hmod, Int.emod_eq_of_lt (Int.natCast_nonneg _) (by exact_mod_cast hlt)]

/-- Bytes are determined by what they stand for. -/
theorem ofLe_inj : ∀ {bs cs : List UInt8}, bs.length = cs.length → ofLe bs = ofLe cs → bs = cs
  | [], [], _, _ => rfl
  | b :: bs, c :: cs, hlen, heq => by
    have hb := b.toNat_lt
    have hc := c.toNat_lt
    simp only [ofLe] at heq
    have htail : bs = cs := ofLe_inj (Nat.succ.inj hlen) (by omega)
    have hhead : b = c := UInt8.toNat_inj.mp (by omega)
    rw [hhead, htail]

/-- The remainder of a small integer. -/
theorem emod_of_small {W : ℤ} (hlow : -W ≤ v) (hhigh : v < W) : v % W = if v < 0 then v + W else v := by
  split_ifs with hneg
  · rw [← Int.add_emod_right, Int.emod_eq_of_lt (by omega) (by omega)]
  · exact Int.emod_eq_of_lt (by omega) hhigh

/-- **An integer that fits**: its bytes, and no other ones, stand for it. -/
theorem ofBytes_eq_iff (hfit : InRange signed w v) (hlen : bs.length = w) :
    ofBytes signed bs = v ↔ bs = intBytes w v := by
  have hlt : (ofLe bs : ℤ) < 256 ^ w := by exact_mod_cast hlen ▸ ofLe_lt bs
  have hnonneg : (0 : ℤ) ≤ ofLe bs := Int.natCast_nonneg _
  have hnat : (ofLe bs : ℤ) = v % 256 ^ w ↔ bs = intBytes w v := by
    rw [← ofLe_intBytes, Nat.cast_inj]
    exact ⟨ofLe_inj (by rw [hlen, length_intBytes]), fun heq => by rw [← heq]⟩
  rw [← hnat]
  unfold ofBytes
  unfold InRange at hfit
  rw [hlen]
  generalize (256 : ℤ) ^ w = W at hfit hlt ⊢
  generalize (ofLe bs : ℤ) = n at hlt hnonneg ⊢
  cases signed with
  | false =>
    rw [if_neg Bool.false_ne_true] at hfit
    rw [if_neg fun h => Bool.false_ne_true h.1, emod_of_small (by omega) hfit.2, if_neg (by omega)]
  | true =>
    rw [if_pos rfl] at hfit
    simp only [true_and]
    rw [emod_of_small (by omega) (by omega)]
    split_ifs with hhigh hneg hneg
    all_goals omega

theorem ofBytes_intBytes (hfit : InRange signed w v) : ofBytes signed (intBytes w v) = v :=
  (ofBytes_eq_iff hfit (length_intBytes w v)).mpr rfl

/-! ### More bytes -/

theorem intBytes_add (d : ℕ) :
    ∀ (w : ℕ) (v : ℤ), intBytes (w + d) v = intBytes w v ++ intBytes d (v / 256 ^ w)
  | 0, v => by rw [Nat.zero_add, pow_zero, Int.ediv_one, intBytes, List.nil_append]
  | w + 1, v => by
    have hquot : v / 256 / 256 ^ w = v / 256 ^ (w + 1) := by
      rw [Int.ediv_ediv_of_nonneg (by decide), pow_succ']
    rw [Nat.add_right_comm, intBytes, intBytes, intBytes_add d w, hquot, List.cons_append]

theorem intBytes_zero : ∀ d : ℕ, intBytes d 0 = List.replicate d 0
  | 0 => rfl
  | d + 1 => by
    rw [intBytes, List.replicate_succ, show (0 : ℤ) / 256 = 0 by decide, intBytes_zero d]
    rfl

theorem intBytes_neg_one : ∀ d : ℕ, intBytes d (-1) = List.replicate d 255
  | 0 => rfl
  | d + 1 => by
    rw [intBytes, List.replicate_succ, show (-1 : ℤ) / 256 = -1 by decide, intBytes_neg_one d]
    rfl

theorem InRange.bounds (hfit : InRange signed w v) : -256 ^ w ≤ v ∧ v < 256 ^ w := by
  have hpos : (0 : ℤ) < 256 ^ w := by positivity
  unfold InRange at hfit
  split_ifs at hfit
  · omega
  · omega

/-- The further bytes of an integer that fits in `w` of them repeat its sign. -/
theorem intBytes_extend (hfit : InRange signed w v) (d : ℕ) :
    intBytes (w + d) v = intBytes w v ++ List.replicate d (signByte v) := by
  obtain ⟨hlow, hhigh⟩ := hfit.bounds
  rw [intBytes_add, signByte]
  split_ifs with hneg
  · have hquot : v / 256 ^ w = -1 := by
      rw [Int.ediv_eq_iff_of_pos (by positivity)]
      constructor <;> linarith
    rw [hquot, intBytes_neg_one]
  · rw [Int.ediv_eq_zero_of_lt (by omega) hhigh, intBytes_zero]

end Hieratika.Foundations

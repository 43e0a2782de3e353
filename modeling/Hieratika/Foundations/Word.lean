import Mathlib.Data.Nat.Basic
import Mathlib.Tactic.Ring

/-!
# Machine words

Unsigned 32-bit arithmetic on natural numbers: a word is a number below `2 ^ 32`,
and an operation that can leave the range is reduced at once, by `u32` after an
addition or a multiplication and by `sub32` for a difference. Every wrap of a
program is then a visible `u32`, and a proof that nothing wraps rewrites it away
with `u32_of_lt`.

`le32` lays a word out as four little-endian bytes and `ofLe` reads bytes back.
-/

namespace Hieratika.Foundations

/-- Reduction to 32 bits. -/
def u32 (n : ℕ) : ℕ := n % 2 ^ 32

/-- The 32-bit difference of two words. -/
def sub32 (a b : ℕ) : ℕ := u32 (a + 2 ^ 32 - b)

theorem u32_lt (n : ℕ) : u32 n < 2 ^ 32 := Nat.mod_lt _ (by norm_num)

@[simp] theorem u32_of_lt {n : ℕ} (h : n < 2 ^ 32) : u32 n = n := Nat.mod_eq_of_lt h

theorem u32_le (n : ℕ) : u32 n ≤ n := Nat.mod_le _ _

/-- A sum that wraps is the sum less `2 ^ 32`. -/
theorem u32_add_of_ge {a b : ℕ} (ha : a < 2 ^ 32) (hb : b < 2 ^ 32) (h : 2 ^ 32 ≤ a + b) :
    u32 (a + b) = a + b - 2 ^ 32 := by
  unfold u32
  omega

theorem sub32_of_le {a b : ℕ} (ha : a < 2 ^ 32) (h : b ≤ a) : sub32 a b = a - b := by
  unfold sub32 u32
  omega

theorem sub32_succ {a : ℕ} (h : a + 1 < 2 ^ 32) : sub32 (a + 1) 1 = a := by
  rw [sub32_of_le h (Nat.le_add_left 1 a), Nat.add_sub_cancel]

/-! ### Division -/

/-- The quotient, unless the divisor is zero. -/
def checkedDiv (a b : ℕ) : Option ℕ := if b = 0 then none else some (a / b)

/-- The remainder, unless the divisor is zero. -/
def checkedMod (a b : ℕ) : Option ℕ := if b = 0 then none else some (a % b)

@[simp] theorem checkedDiv_zero (a : ℕ) : checkedDiv a 0 = none := rfl

@[simp] theorem checkedMod_zero (a : ℕ) : checkedMod a 0 = none := rfl

theorem checkedDiv_of_pos {b : ℕ} (h : 0 < b) (a : ℕ) : checkedDiv a b = some (a / b) := if_neg h.ne'

theorem checkedMod_of_pos {b : ℕ} (h : 0 < b) (a : ℕ) : checkedMod a b = some (a % b) := if_neg h.ne'

/-! ### Bytes of a word -/

/-- The `k`-th byte of a number, least significant first. -/
def byteOf (n k : ℕ) : UInt8 := UInt8.ofNat (n / 256 ^ k)

/-- The four little-endian bytes of a word. -/
def le32 (n : ℕ) : List UInt8 := [byteOf n 0, byteOf n 1, byteOf n 2, byteOf n 3]

/-- The number that bytes stand for, least significant first. -/
def ofLe : List UInt8 → ℕ
  | [] => 0
  | b :: bs => b.toNat + 256 * ofLe bs

@[simp] theorem length_le32 (n : ℕ) : (le32 n).length = 4 := rfl

theorem toNat_byteOf (n k : ℕ) : (byteOf n k).toNat = n / 256 ^ k % 256 := by
  simp [byteOf]

/-- A word is what its bytes stand for. -/
theorem ofLe_le32 {n : ℕ} (h : n < 2 ^ 32) : ofLe (le32 n) = n := by
  simp only [le32, ofLe, toNat_byteOf]
  omega

theorem ofLe_lt : ∀ bs : List UInt8, ofLe bs < 256 ^ bs.length
  | [] => by simp [ofLe]
  | b :: bs => by
    have := ofLe_lt bs
    have := b.toNat_lt
    simp only [ofLe, List.length_cons, pow_succ]
    omega

end Hieratika.Foundations

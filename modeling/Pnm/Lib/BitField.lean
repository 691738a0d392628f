import Mathlib.Data.Nat.Bitwise
import Mathlib.Tactic.Common
import Mathlib.Tactic.Ring

/-!
# `Lib.BitField` — masks, shifts and single bits as arithmetic

Register layouts are written with shifts and masks; proofs about them are easier in quotients and
remainders, where linear arithmetic finishes. This file has the bridge: a masked shift is a remainder of a
quotient, an exclusive or of two bits is again a bit, and overwriting one bit (`x &= ~(1 << k); x |= b << k`)
exchanges one binary digit.
-/

namespace Pnm.Lib

/-- The field of `x` that starts at bit `lo`, under `mask`. -/
def bitField (x lo mask : Nat) : Nat := (x >>> lo) &&& mask

theorem bitField_eq {mask w : Nat} (x lo : Nat) (h : mask + 1 = 2 ^ w) :
    bitField x lo mask = x / 2 ^ lo % 2 ^ w := by
  obtain rfl : mask = 2 ^ w - 1 := by omega
  rw [bitField, Nat.and_two_pow_sub_one_eq_mod, Nat.shiftRight_eq_div_pow]

theorem bitField_zero {mask w : Nat} (x : Nat) (h : mask + 1 = 2 ^ w) : bitField x 0 mask = x % 2 ^ w := by
  rw [bitField_eq x 0 h, Nat.pow_zero, Nat.div_one]

/-- One bit of `x`. -/
theorem bitField_one (x lo : Nat) : bitField x lo 1 = x / 2 ^ lo % 2 := bitField_eq x lo (w := 1) rfl

/-- Two neighbouring fields make one. -/
theorem field_split (x lo w v : Nat) :
    x / 2 ^ lo % 2 ^ (w + v) = x / 2 ^ lo % 2 ^ w + 2 ^ w * (x / 2 ^ (lo + w) % 2 ^ v) := by
  rw [Nat.pow_add, Nat.mod_mul, Nat.div_div_eq_div_mul, ← Nat.pow_add]

theorem bitField_le (x lo mask : Nat) : bitField x lo mask ≤ mask := Nat.and_le_right

theorem xor_le_one {a b : Nat} (ha : a ≤ 1) (hb : b ≤ 1) : a ^^^ b ≤ 1 := by
  have ha' : a = 0 ∨ a = 1 := by omega
  have hb' : b = 0 ∨ b = 1 := by omega
  rcases ha' with rfl | rfl <;> rcases hb' with rfl | rfl <;> decide

/-- Two bits packed next to each other are read back. -/
theorem bitField_two_bits {u v : Nat} (hu : u ≤ 1) (hv : v ≤ 1) :
    bitField (u + v * 2) 0 1 = u ∧ bitField (u + v * 2) 1 1 = v := by
  rw [bitField_one, bitField_one]
  omega

theorem or_two_bits {u v : Nat} (hu : u ≤ 1) : u ||| v <<< 1 = u + v * 2 := by
  have h := Nat.two_pow_add_eq_or_of_lt (i := 1) (b := u) (by omega) v
  rw [Nat.lor_comm, Nat.shiftLeft_eq, Nat.mul_comm v (2 ^ 1), ← h]
  omega

/-- `x &= ~(1 << k); x |= b << k` on a `w`-bit register. -/
def rewriteBit (w x k b : Nat) : Nat := (x &&& ((2 ^ w - 1) ^^^ (1 <<< k))) ||| (b <<< k)

/-- **Overwriting a bit** keeps the digits below and above it. -/
theorem rewriteBit_eq {w x k b : Nat} (hx : x < 2 ^ w) (hb : b ≤ 1) :
    rewriteBit w x k b = 2 ^ (k + 1) * (x / 2 ^ (k + 1)) + (2 ^ k * b + x % 2 ^ k) := by
  have hlow : x % 2 ^ k < 2 ^ k := Nat.mod_lt _ (Nat.two_pow_pos k)
  have hmid : 2 ^ k * b + x % 2 ^ k < 2 ^ (k + 1) := by
    have : 2 ^ k * b ≤ 2 ^ k * 1 := Nat.mul_le_mul_left _ hb
    rw [Nat.pow_succ]
    omega
  have hhigh : ∀ j, w ≤ j → x.testBit j = false := fun j hj =>
    Nat.testBit_lt_two_pow (lt_of_lt_of_le hx (Nat.pow_le_pow_right (by omega) hj))
  refine Nat.eq_of_testBit_eq fun j => ?_
  rw [Nat.testBit_two_pow_mul_add _ hmid]
  rcases lt_trichotomy j k with hj | rfl | hj
  · rw [if_pos (by omega), Nat.testBit_two_pow_mul_add _ hlow, if_pos hj]
    by_cases hw : j < w
    · simp [rewriteBit, Nat.testBit_shiftLeft, Nat.testBit_mod_two_pow, hj, hw, Nat.one_shiftLeft,
        Nat.ne_of_gt hj]
    · simp [rewriteBit, Nat.testBit_shiftLeft, Nat.testBit_mod_two_pow, hj, hhigh j (by omega)]
  · rw [if_pos (by omega), Nat.testBit_two_pow_mul_add _ hlow, if_neg (by omega)]
    by_cases hw : j < w
    · simp [rewriteBit, Nat.testBit_shiftLeft, hw, Nat.one_shiftLeft]
    · simp [rewriteBit, Nat.testBit_shiftLeft, hhigh j (by omega)]
  · rw [if_neg (by omega), Nat.testBit_div_two_pow, show j - (k + 1) + (k + 1) = j by omega]
    have hb0 : b.testBit (j - k) = false :=
      Nat.testBit_lt_two_pow (lt_of_le_of_lt hb (Nat.one_lt_two_pow (by omega)))
    by_cases hw : j < w
    · simp [rewriteBit, Nat.testBit_shiftLeft, hw, Nat.one_shiftLeft, Nat.ne_of_lt hj, hb0]
    · simp [rewriteBit, Nat.testBit_shiftLeft, hhigh j (by omega), hb0]

/-- Overwriting a digit that stands between the digits `lo` and `hi`. -/
theorem rewriteBit_digit {w k lo d hi b : Nat} (hlo : lo < 2 ^ k) (hd : d ≤ 1) (hb : b ≤ 1)
    (hx : lo + d * 2 ^ k + hi * 2 ^ (k + 1) < 2 ^ w) :
    rewriteBit w (lo + d * 2 ^ k + hi * 2 ^ (k + 1)) k b = lo + b * 2 ^ k + hi * 2 ^ (k + 1) := by
  have hlow : lo + d * 2 ^ k < 2 ^ (k + 1) := by
    have hle : d * 2 ^ k ≤ 1 * 2 ^ k := Nat.mul_le_mul_right _ hd
    rw [Nat.pow_succ]
    omega
  have hdiv : (lo + d * 2 ^ k + hi * 2 ^ (k + 1)) / 2 ^ (k + 1) = hi := by
    rw [Nat.add_mul_div_right _ _ (Nat.two_pow_pos _), Nat.div_eq_of_lt hlow, Nat.zero_add]
  have hmod : (lo + d * 2 ^ k + hi * 2 ^ (k + 1)) % 2 ^ k = lo := by
    rw [Nat.pow_succ, Nat.mul_comm (2 ^ k) 2, ← Nat.mul_assoc, Nat.add_mul_mod_self_right, Nat.add_mul_mod_self_right,
      Nat.mod_eq_of_lt hlo]
  rw [rewriteBit_eq hx hb, hdiv, hmod]
  ring

/-- Setting a clear bit adds its weight. -/
theorem or_bit_of_clear {x k : Nat} (h : x / 2 ^ k % 2 = 0) : x ||| (1 <<< k) = x + 2 ^ k := by
  have hlow : x % 2 ^ k < 2 ^ k := Nat.mod_lt _ (Nat.two_pow_pos k)
  have hx : x = 2 ^ (k + 1) * (x / 2 ^ (k + 1)) + x % 2 ^ k := by
    have h1 := Nat.div_add_mod x (2 ^ k)
    have h2 := Nat.div_add_mod (x / 2 ^ k) 2
    rw [h, Nat.add_zero, Nat.div_div_eq_div_mul, ← Nat.pow_succ] at h2
    rw [Nat.pow_succ, Nat.mul_assoc, ← Nat.pow_succ, h2, h1]
  refine Nat.eq_of_testBit_eq fun j => ?_
  have hmid : 2 ^ k * 1 + x % 2 ^ k < 2 ^ (k + 1) := by rw [Nat.pow_succ]; omega
  have hsum : x + 2 ^ k = 2 ^ (k + 1) * (x / 2 ^ (k + 1)) + (2 ^ k * 1 + x % 2 ^ k) := by omega
  rw [hsum, Nat.testBit_two_pow_mul_add _ hmid, Nat.testBit_or, Nat.one_shiftLeft, Nat.testBit_two_pow]
  conv_lhs => rw [hx]
  rw [Nat.testBit_two_pow_mul_add _ (by omega)]
  rcases lt_trichotomy j k with hj | rfl | hj
  · rw [if_pos (by omega), if_pos (by omega), Nat.testBit_two_pow_mul_add _ hlow, if_pos hj]
    simp [Nat.ne_of_gt hj]
  · rw [if_pos (by omega), if_pos (by omega), Nat.testBit_two_pow_mul_add _ hlow, if_neg (by omega)]
    simp
  · rw [if_neg (by omega), if_neg (by omega)]
    simp [Nat.ne_of_lt hj]

end Pnm.Lib

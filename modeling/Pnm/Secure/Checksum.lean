import Mathlib.Algebra.BigOperators.Ring.List
import Mathlib.Algebra.Order.BigOperators.Group.List
import Mathlib.Algebra.Polynomial.Roots
import Mathlib.Data.Int.ModEq
import Mathlib.NumberTheory.LucasLehmer
import Mathlib.Tactic.NormNum
import Pnm.Secure.Engines

/-!
# `Secure.Checksum` — the checksum and the documented polynomial

`linear_checksum` is meant to be the polynomial `∑ P_j * s ^ (j + 1)` modulo `Q = 2 ^ 127 - 1`. Two things in the fold
are different. The power of the key is squared on every turn, so its exponents are 1, 2, 4, 8 and so on. And sums,
products and squares are taken modulo `2 ^ 128`, which is 2 modulo `Q`: every wrap takes away a multiple of `2 ^ 128`
that counts twice its factor.

`weightedSum` is the sum the fold adds up, without wrapping; the checksum is its remainder modulo `2 ^ 128`
(`toNat_linearChecksum`). Where nothing wraps it is `∑ P_j * s ^ (2 ^ j)` modulo `Q`, and exceeds the polynomial by a
multiple of `s ^ 3` that is too small to be a multiple of the prime `Q` as well (`matches_iff_of_small`). A row that is
right for every key is found with the keys `c * 2 ^ 64`, whose squares wrap to zero: the polynomial has more roots among
them than its degree (`eq_zero_of_all_keys`). `checksum_polynomial_iff` puts the exact conditions together.
-/

namespace Pnm.Secure.VerificationEngine

open Pnm.Lib

variable (v : VerificationEngine)

/-- The number `Q`. -/
def modulus : Nat := 2 ^ 127 - 1

example : Q.toNat = modulus := by decide

theorem modulus_prime : Nat.Prime modulus := lucas_lehmer_sufficiency _ (by simp) (by norm_num)

theorem coprime_modulus {s : Nat} (hne : s ≠ 0) (hlt : s < modulus) : Nat.Coprime s modulus :=
  (Nat.coprime_of_lt_prime hne hlt modulus_prime).symm

/-- The documented polynomial in the key: the sum of `P_j * s ^ (j + 1)`. -/
def polynomial (s : Nat) (row : Words) (count : Nat) : Nat :=
  ((List.range count).map fun j => (row j).toNat * s ^ (j + 1)).sum

/-- **The checksum is the documented polynomial**, modulo `Q`. -/
def MatchesPolynomial (row : Words) (count : Nat) : Prop :=
  (v.linearChecksum row count).toNat ≡ polynomial v.checksumKey.toNat row count [MOD modulus]

/-- The sum that the fold adds up, before it is wrapped. -/
def weightedSum (row : Words) (count : Nat) : Nat :=
  ((List.range count).map fun j => (v.weight j).toNat * (row j).toNat).sum

/-- **The checksum is the weighted sum modulo `2 ^ 128`.** -/
theorem toNat_linearChecksum (row : Words) (count : Nat) :
    (v.linearChecksum row count).toNat = v.weightedSum row count % 2 ^ 128 := by
  rw [v.linearChecksum_eq]
  unfold weighted weightedSum
  induction count with
  | zero => rfl
  | succ count ih =>
      rw [List.sum_range_succ, List.sum_range_succ, BitVec.toNat_add, ih, BitVec.toNat_mul, BitVec.toNat_setWidth,
        Nat.mod_eq_of_lt (Nat.lt_of_lt_of_le (row count).isLt (by decide)), ← Nat.add_mod]

/-! ## Sums over a row -/

/-- Sums of numbers that agree modulo `Q`. -/
theorem modEq_sum_range {f g : Nat → Nat} {count : Nat} (h : ∀ j < count, f j ≡ g j [MOD modulus]) :
    ((List.range count).map f).sum ≡ ((List.range count).map g).sum [MOD modulus] := by
  induction count with
  | zero => rfl
  | succ count ih =>
      rw [List.sum_range_succ, List.sum_range_succ]
      exact (ih fun j hj => h j (Nat.lt_succ_of_lt hj)).add (h count (Nat.lt_succ_self count))

/-- A sum with one term. -/
theorem sum_range_single {f : Nat → Nat} {i count : Nat} (hi : i < count) (hzero : ∀ j < count, j ≠ i → f j = 0) :
    ((List.range count).map f).sum = f i := by
  rw [show ((List.range count).map f).sum = ∑ j ∈ Finset.range count, f j from rfl]
  exact Finset.sum_eq_single_of_mem i (Finset.mem_range.mpr hi) fun j hj => hzero j (Finset.mem_range.mp hj)

/-- A term is at most the sum. -/
theorem le_sum_range {f : Nat → Nat} {j count : Nat} (hj : j < count) : f j ≤ ((List.range count).map f).sum :=
  List.le_sum_of_mem (List.mem_map_of_mem (List.mem_range.mpr hj))

/-! ## The weights -/

theorem toNat_weight_succ (j : Nat) :
    (v.weight (j + 1)).toNat = (v.weight j).toNat * (v.weight j).toNat % 2 ^ 128 % modulus := by
  rw [weight, BitVec.toNat_umod, BitVec.toNat_mul, show Q.toNat = modulus by decide]

theorem weight_lt (hkey : v.checksumKey.toNat < modulus) (j : Nat) : (v.weight j).toNat < modulus := by
  cases j with
  | zero => exact hkey
  | succ j =>
      rw [toNat_weight_succ]
      exact Nat.mod_lt _ (by decide)

/-- **The weights are the powers with the exponents 1, 2, 4, 8**, as long as these do not wrap. -/
theorem weight_eq_pow {j : Nat} (hlt : v.checksumKey.toNat ^ 2 ^ j < 2 ^ 128) :
    (v.weight j).toNat ≤ v.checksumKey.toNat ^ 2 ^ j ∧
      (v.weight j).toNat ≡ v.checksumKey.toNat ^ 2 ^ j [MOD modulus] := by
  induction j with
  | zero => simp [weight, Nat.ModEq.refl]
  | succ j ih =>
      have hsquare : v.checksumKey.toNat ^ 2 ^ (j + 1) = v.checksumKey.toNat ^ 2 ^ j * v.checksumKey.toNat ^ 2 ^ j := by
        rw [pow_succ 2 j, pow_mul, sq]
      rw [hsquare] at hlt ⊢
      obtain ⟨hle, hmod⟩ := ih (Nat.lt_of_le_of_lt (Nat.le_mul_self _) hlt)
      have hprod := Nat.mul_le_mul hle hle
      rw [toNat_weight_succ, Nat.mod_eq_of_lt (Nat.lt_of_le_of_lt hprod hlt)]
      exact ⟨(Nat.mod_le _ _).trans hprod, (Nat.mod_modEq _ _).trans (hmod.mul hmod)⟩

theorem weightedSum_le (hkey : v.checksumKey.toNat < modulus) {row : Words} {b : Nat} (hrow : ∀ j, (row j).toNat ≤ b)
    (count : Nat) : v.weightedSum row count ≤ count * ((modulus - 1) * b) := by
  have hle := List.sum_le_card_nsmul ((List.range count).map fun j => (v.weight j).toNat * (row j).toNat)
    ((modulus - 1) * b) (by
      intro x hx
      obtain ⟨j, -, rfl⟩ := List.mem_map.mp hx
      exact Nat.mul_le_mul (Nat.le_pred_of_lt (v.weight_lt hkey j)) (hrow j))
  rwa [List.length_map, List.length_range, smul_eq_mul] at hle

/-! ## Wraps -/

/-- Modulo `Q` a wrap takes away twice its factor. -/
theorem mod_wrap (x : Nat) : x ≡ x % 2 ^ 128 + 2 * (x / 2 ^ 128) [MOD modulus] := by
  have hpow : 2 ^ 128 ≡ 2 [MOD modulus] := by decide
  calc x = x % 2 ^ 128 + 2 ^ 128 * (x / 2 ^ 128) := (Nat.mod_add_div x _).symm
    _ ≡ x % 2 ^ 128 + 2 * (x / 2 ^ 128) [MOD modulus] := (hpow.mul_right _).add_left _

/-- **Where the weights are right the checksum is right exactly if the sum does not wrap.** -/
theorem matches_iff_lt {row : Words} {count : Nat}
    (hpoly : v.weightedSum row count ≡ polynomial v.checksumKey.toNat row count [MOD modulus])
    (hsmall : v.weightedSum row count < 2 ^ 128 * modulus) :
    v.MatchesPolynomial row count ↔ v.weightedSum row count < 2 ^ 128 := by
  rw [MatchesPolynomial, toNat_linearChecksum]
  generalize v.weightedSum row count = x at hpoly hsmall
  constructor
  · intro h
    have hwrap : 2 * (x / 2 ^ 128) ≡ 2 * 0 [MOD modulus] :=
      Nat.ModEq.add_left_cancel' (x % 2 ^ 128) ((mod_wrap x).symm.trans (hpoly.trans h.symm))
    -- there are fewer than `Q` wraps, so their number vanishes modulo `Q` only if it is zero
    have hnone : x / 2 ^ 128 ≡ 0 [MOD modulus] := Nat.ModEq.cancel_left_of_coprime (by decide) hwrap
    have hzero := Nat.eq_zero_of_dvd_of_lt (Nat.modEq_zero_iff_dvd.mp hnone) (Nat.div_lt_of_lt_mul hsmall)
    exact Nat.lt_of_div_eq_zero (by decide) hzero
  · intro hlt
    rwa [Nat.mod_eq_of_lt hlt]

/-- A weighted sum to which only the first element contributes. -/
theorem weightedSum_first {row : Words} {count : Nat} (hcount : 0 < count)
    (hzero : ∀ j, j + 1 < count → v.weight (j + 1) = 0 ∨ row (j + 1) = 0) :
    v.weightedSum row count = v.checksumKey.toNat * (row 0).toNat := by
  apply sum_range_single hcount
  intro j hj hne
  obtain ⟨i, rfl⟩ := Nat.exists_eq_succ_of_ne_zero hne
  rcases hzero i hj with h | h
  · simp [h]
  · simp [h]

/-- **Rows that are zero after their first element**: the checksum is the polynomial exactly if the product does not
    wrap. -/
theorem matches_first_iff (hkey : v.checksumKey.toNat < modulus) {row : Words} {count : Nat} (hcount : 0 < count)
    (hzero : ∀ j, j + 1 < count → row (j + 1) = 0) :
    v.MatchesPolynomial row count ↔ v.checksumKey.toNat * (row 0).toNat < 2 ^ 128 := by
  have hsum := v.weightedSum_first hcount fun j hj => .inr (hzero j hj)
  have hpoly : polynomial v.checksumKey.toNat row count = v.checksumKey.toNat * (row 0).toNat := by
    rw [polynomial, sum_range_single hcount, Nat.mul_comm, pow_one]
    intro j hj hne
    obtain ⟨i, rfl⟩ := Nat.exists_eq_succ_of_ne_zero hne
    simp [hzero i hj]
  have hlt : v.checksumKey.toNat * (row 0).toNat < 2 ^ 128 * modulus := by
    rw [Nat.mul_comm]
    exact Nat.mul_lt_mul'' (Nat.lt_trans (row 0).isLt (by decide)) hkey
  rw [v.matches_iff_lt (by rw [hsum, hpoly]) (by rw [hsum]; exact hlt), hsum]

/-- **Rows of two elements**, with a key whose square does not wrap: the same. -/
theorem matches_two_iff (hkey : v.checksumKey.toNat < 2 ^ 64) (row : Words) :
    v.MatchesPolynomial row 2 ↔
      v.checksumKey.toNat * (row 0).toNat + v.checksumKey.toNat ^ 2 % modulus * (row 1).toNat < 2 ^ 128 := by
  have hsquare : v.checksumKey.toNat * v.checksumKey.toNat < 2 ^ 128 :=
    Nat.lt_of_lt_of_eq (Nat.mul_lt_mul'' hkey hkey) (by decide)
  have hweight : (v.weight 1).toNat = v.checksumKey.toNat ^ 2 % modulus := by
    rw [toNat_weight_succ, weight, Nat.mod_eq_of_lt hsquare, sq]
  have hsum : v.weightedSum row 2 =
      v.checksumKey.toNat * (row 0).toNat + v.checksumKey.toNat ^ 2 % modulus * (row 1).toNat := by
    rw [weightedSum, List.sum_range_succ, hweight]
    simp [weight]
  have hpoly : v.weightedSum row 2 ≡ polynomial v.checksumKey.toNat row 2 [MOD modulus] := by
    rw [hsum, polynomial, List.sum_range_succ, Nat.mul_comm (row 1).toNat]
    refine Nat.ModEq.add (by simp [Nat.mul_comm, Nat.ModEq.refl]) ((Nat.mod_modEq _ _).mul_right _)
  have hle := v.weightedSum_le (Nat.lt_trans hkey (by decide)) (fun j => Nat.le_pred_of_lt (row j).isLt) 2
  rw [v.matches_iff_lt hpoly (Nat.lt_of_le_of_lt hle (by decide)), hsum]

/-! ## Where nothing wraps -/

/-- What the fold adds up for a key `s` if nothing wraps: the sum of `P_j * s ^ (2 ^ j)`. -/
def squaringSum (s : Nat) (row : Words) (count : Nat) : Nat :=
  ((List.range count).map fun j => (row j).toNat * s ^ 2 ^ j).sum

/-- What that is more than the polynomial. -/
def surplus (s : Nat) (row : Words) (count : Nat) : Nat :=
  ((List.range count).map fun j => (row j).toNat * (s ^ 2 ^ j - s ^ (j + 1))).sum

theorem pow_succ_le_pow_two_pow (s j : Nat) : s ^ (j + 1) ≤ s ^ 2 ^ j := by
  rcases Nat.eq_zero_or_pos s with rfl | hs
  · rw [zero_pow (Nat.succ_ne_zero j)]
    exact Nat.zero_le _
  · exact Nat.pow_le_pow_right hs Nat.lt_two_pow_self

theorem squaringSum_eq (s : Nat) (row : Words) (count : Nat) :
    squaringSum s row count = polynomial s row count + surplus s row count := by
  rw [squaringSum, polynomial, surplus, ← List.sum_map_add]
  congr 1
  apply List.map_congr_left
  intro j _
  rw [← Nat.mul_add, Nat.add_sub_of_le (pow_succ_le_pow_two_pow s j)]

/-- The first two exponents are right, and all others are at least 3. -/
theorem cube_dvd_surplus (s : Nat) (row : Words) (count : Nat) : s ^ 3 ∣ surplus s row count := by
  apply List.dvd_sum
  intro x hx
  obtain ⟨j, -, rfl⟩ := List.mem_map.mp hx
  apply Dvd.dvd.mul_left
  rcases Nat.lt_or_ge j 2 with hj | hj
  · obtain rfl | rfl : j = 0 ∨ j = 1 := by omega
    · simp
    · simp
  · apply Nat.dvd_sub
    · exact pow_dvd_pow s (Nat.le_trans (Nat.succ_le_succ hj) Nat.lt_two_pow_self)
    · exact pow_dvd_pow s (Nat.succ_le_succ hj)

theorem surplus_eq_zero_iff (s : Nat) (row : Words) (count : Nat) :
    surplus s row count = 0 ↔ s ≤ 1 ∨ ∀ j, 2 ≤ j → j < count → row j = 0 := by
  rw [surplus, List.sum_eq_zero_iff]
  constructor
  · intro hzero
    rcases Nat.lt_or_ge 1 s with hs | hs
    · refine .inr fun j hj hcount => ?_
      have hterm := hzero _ (List.mem_map_of_mem (List.mem_range.mpr hcount))
      have hexp : j + 1 < 2 ^ j := by
        obtain ⟨i, rfl⟩ := Nat.exists_eq_add_of_le hj
        have hpow : i < 2 ^ i := Nat.lt_two_pow_self
        rw [pow_add]
        omega
      have hgap := Nat.sub_pos_of_lt (Nat.pow_lt_pow_right hs hexp)
      exact BitVec.eq_of_toNat_eq ((Nat.mul_eq_zero.mp hterm).resolve_right (Nat.pos_iff_ne_zero.mp hgap))
    · exact .inl hs
  · intro hcases x hx
    obtain ⟨j, hj, rfl⟩ := List.mem_map.mp hx
    rcases hcases with hs | hrow
    · obtain rfl | rfl : s = 0 ∨ s = 1 := by omega
      · simp
      · simp
    · rcases Nat.lt_or_ge j 2 with hj2 | hj2
      · obtain rfl | rfl : j = 0 ∨ j = 1 := by omega
        · simp
        · simp
      · rw [hrow j hj2 (List.mem_range.mp hj)]
        simp

/-- The weighted sum, where nothing wraps. -/
theorem weightedSum_of_small {row : Words} {count : Nat}
    (hsmall : squaringSum v.checksumKey.toNat row count < 2 ^ 128) :
    v.weightedSum row count ≤ squaringSum v.checksumKey.toNat row count ∧
      v.weightedSum row count ≡ squaringSum v.checksumKey.toNat row count [MOD modulus] := by
  have hterm : ∀ j < count, (v.weight j).toNat * (row j).toNat ≤ (row j).toNat * v.checksumKey.toNat ^ 2 ^ j ∧
      (v.weight j).toNat * (row j).toNat ≡ (row j).toNat * v.checksumKey.toNat ^ 2 ^ j [MOD modulus] := by
    intro j hj
    rcases Nat.eq_zero_or_pos (row j).toNat with hrow | hrow
    · rw [hrow]
      simp [Nat.ModEq.refl]
    · -- the power is at most its term, which is at most the sum
      have hsum : (row j).toNat * v.checksumKey.toNat ^ 2 ^ j ≤ squaringSum v.checksumKey.toNat row count :=
        le_sum_range (f := fun i => (row i).toNat * v.checksumKey.toNat ^ 2 ^ i) hj
      have hlt : v.checksumKey.toNat ^ 2 ^ j < 2 ^ 128 :=
        Nat.lt_of_le_of_lt ((Nat.le_mul_of_pos_left _ hrow).trans hsum) hsmall
      obtain ⟨hle, hmod⟩ := v.weight_eq_pow hlt
      rw [Nat.mul_comm]
      exact ⟨Nat.mul_le_mul_left _ hle, hmod.mul_left _⟩
  refine ⟨List.sum_le_sum fun j hj => (hterm j (List.mem_range.mp hj)).1, ?_⟩
  exact modEq_sum_range fun j hj => (hterm j hj).2

/-- **Where nothing wraps**: the checksum is right exactly for the keys 0 and 1 and for rows that are zero after their
    second element. -/
theorem matches_iff_of_small (hkey : v.checksumKey.toNat < modulus) {row : Words} {count : Nat}
    (hsmall : squaringSum v.checksumKey.toNat row count < 2 ^ 128) :
    v.MatchesPolynomial row count ↔ v.checksumKey.toNat ≤ 1 ∨ ∀ j, 2 ≤ j → j < count → row j = 0 := by
  obtain ⟨hle, hmod⟩ := v.weightedSum_of_small hsmall
  rw [MatchesPolynomial, toNat_linearChecksum, Nat.mod_eq_of_lt (Nat.lt_of_le_of_lt hle hsmall),
    ← surplus_eq_zero_iff]
  rw [squaringSum_eq] at hmod hsmall
  constructor
  · intro hright
    have hdvd : modulus ∣ surplus v.checksumKey.toNat row count :=
      Nat.modEq_zero_iff_dvd.mp (Nat.ModEq.add_left_cancel' _ (hmod.symm.trans hright))
    rcases Nat.lt_or_ge 1 v.checksumKey.toNat with hs | hs
    · -- it is a multiple of `Q` and of a cube that has no factor with `Q` in common, so of at least `8 * Q`
      have hcoprime : Nat.Coprime (v.checksumKey.toNat ^ 3) modulus :=
        Nat.Coprime.pow_left 3 (coprime_modulus (Nat.ne_of_gt (Nat.zero_lt_of_lt hs)) hkey)
      have hmul := hcoprime.mul_dvd_of_dvd_of_dvd (cube_dvd_surplus _ row count) hdvd
      refine Nat.eq_zero_of_dvd_of_lt hmul ?_
      calc surplus v.checksumKey.toNat row count < 2 ^ 128 := Nat.lt_of_le_of_lt (Nat.le_add_left _ _) hsmall
        _ ≤ 2 ^ 3 * modulus := by decide
        _ ≤ v.checksumKey.toNat ^ 3 * modulus := Nat.mul_le_mul_right _ (Nat.pow_le_pow_left hs 3)
    · exact (surplus_eq_zero_iff _ row count).mpr (.inl hs)
  · intro hzero
    rwa [hzero, Nat.add_zero] at hmod

/-! ## All keys, and all rows -/

/-- The engine with a given key. -/
def ofKey (s : BitVec 128) : VerificationEngine := { version := 0, baseAddress := 0, aes := fun _ => s }

theorem checksumKey_ofKey (s : BitVec 128) : (ofKey s).checksumKey = s := rfl

section Row

variable {row : Words} {count : Nat}

/-- The keys whose square wraps to zero. -/
theorem weight_shifted_key (c : Nat) (hc : c < 2 ^ 64) (j : Nat) :
    (ofKey (BitVec.ofNat 128 (c * 2 ^ 64))).weight (j + 1) = 0 := by
  have hkey : (BitVec.ofNat 128 (c * 2 ^ 64)).toNat = c * 2 ^ 64 := by
    rw [BitVec.toNat_ofNat, Nat.mod_eq_of_lt]
    exact Nat.lt_of_lt_of_eq (Nat.mul_lt_mul_of_pos_right hc (by decide)) (by decide)
  induction j with
  | zero =>
      apply BitVec.eq_of_toNat_eq
      rw [toNat_weight_succ, weight, checksumKey_ofKey, hkey,
        show c * 2 ^ 64 * (c * 2 ^ 64) = 2 ^ 128 * (c * c) by ring, Nat.mul_mod_right]
      rfl
  | succ j ih =>
      apply BitVec.eq_of_toNat_eq
      rw [toNat_weight_succ, ih]
      rfl

open Polynomial in
/-- The documented polynomial over the integers modulo `Q`, without its first term. -/
noncomputable def tailPolynomial (row : Words) (count : Nat) : (ZMod modulus)[X] :=
  ∑ j ∈ Finset.range count, C ((row j).toNat : ZMod modulus) * X ^ (j + 1) - C ((row 0).toNat : ZMod modulus) * X

theorem eval_tailPolynomial (s : Nat) :
    (tailPolynomial row count).eval (s : ZMod modulus) =
      (polynomial s row count : ZMod modulus) - ((s * (row 0).toNat : Nat) : ZMod modulus) := by
  rw [polynomial, show ((List.range count).map fun j => (row j).toNat * s ^ (j + 1)).sum =
    ∑ j ∈ Finset.range count, (row j).toNat * s ^ (j + 1) from rfl]
  simp [tailPolynomial, Polynomial.eval_finsetSum, mul_comm]

theorem natDegree_tailPolynomial_le (hcount : 0 < count) : (tailPolynomial row count).natDegree ≤ count := by
  refine (Polynomial.natDegree_sub_le_of_le (m := count) (n := 1) ?_ ?_).trans (max_le le_rfl hcount)
  · apply Polynomial.natDegree_sum_le_of_forall_le
    intro j hj
    exact (Polynomial.natDegree_C_mul_X_pow_le _ _).trans (Finset.mem_range.mp hj)
  · exact (Polynomial.natDegree_C_mul_le _ _).trans Polynomial.natDegree_X_le

theorem coeff_tailPolynomial {j : Nat} (hj : j + 1 < count) :
    (tailPolynomial row count).coeff (j + 2) = ((row (j + 1)).toNat : ZMod modulus) := by
  rw [tailPolynomial, Polynomial.coeff_sub, Polynomial.finsetSum_coeff,
    Finset.sum_eq_single_of_mem (j + 1) (Finset.mem_range.mpr hj)]
  · simp
  · intro i _ hi
    rw [Polynomial.coeff_C_mul_X_pow, if_neg (by omega)]

/-- **Too many roots.** -/
theorem eq_zero_of_all_keys (hcount : count ≤ 2 ^ 32)
    (hall : ∀ u : VerificationEngine, u.checksumKey.toNat < modulus → u.MatchesPolynomial row count) {j : Nat}
    (hj : j + 1 < count) : row (j + 1) = 0 := by
  have : Fact (Nat.Prime modulus) := ⟨modulus_prime⟩
  have hpos : 0 < count := Nat.zero_lt_of_lt hj
  have hlt : ∀ c : Fin (2 ^ 32 + 1), (c : Nat) * 2 ^ 64 < modulus := fun c =>
    Nat.lt_of_le_of_lt (Nat.mul_le_mul_right _ (Nat.le_of_lt_succ c.isLt)) (by decide)
  have hroot : ∀ c : Fin (2 ^ 32 + 1),
      (tailPolynomial row count).eval (((c : Nat) * 2 ^ 64 : Nat) : ZMod modulus) = 0 := by
    intro c
    have hc : (c : Nat) < 2 ^ 64 := Nat.lt_trans c.isLt (by decide)
    have hkey : (BitVec.ofNat 128 ((c : Nat) * 2 ^ 64)).toNat = (c : Nat) * 2 ^ 64 := by
      rw [BitVec.toNat_ofNat, Nat.mod_eq_of_lt (Nat.lt_trans (hlt c) (by decide))]
    have hright := hall (ofKey (BitVec.ofNat 128 ((c : Nat) * 2 ^ 64)))
      (by rw [checksumKey_ofKey, hkey]; exact hlt c)
    have hprod : (c : Nat) * 2 ^ 64 * (row 0).toNat < 2 ^ 128 := by
      calc (c : Nat) * 2 ^ 64 * (row 0).toNat ≤ 2 ^ 32 * 2 ^ 64 * (2 ^ 32 - 1) :=
            Nat.mul_le_mul (Nat.mul_le_mul_right _ (Nat.le_of_lt_succ c.isLt)) (Nat.le_pred_of_lt (row 0).isLt)
        _ < 2 ^ 128 := by decide
    rw [MatchesPolynomial, toNat_linearChecksum,
      weightedSum_first _ hpos fun i _ => .inl (weight_shifted_key c hc i), checksumKey_ofKey, hkey,
      Nat.mod_eq_of_lt hprod] at hright
    rw [eval_tailPolynomial, (ZMod.natCast_eq_natCast_iff _ _ _).mpr hright, sub_self]
  have hinj : Function.Injective fun c : Fin (2 ^ 32 + 1) => (((c : Nat) * 2 ^ 64 : Nat) : ZMod modulus) := by
    intro a b hab
    have hmod := (ZMod.natCast_eq_natCast_iff _ _ _).mp hab
    have heq := Nat.ModEq.eq_of_lt_of_lt hmod (hlt a) (hlt b)
    exact Fin.ext (Nat.eq_of_mul_eq_mul_right (by decide) heq)
  have hzero : tailPolynomial row count = 0 := by
    apply Polynomial.eq_zero_of_natDegree_lt_card_of_eval_eq_zero _ hinj hroot
    rw [Fintype.card_fin]
    exact Nat.lt_succ_of_le ((natDegree_tailPolynomial_le hpos).trans hcount)
  have hcoeff : (tailPolynomial row count).coeff (j + 2) = ((row (j + 1)).toNat : ZMod modulus) :=
    coeff_tailPolynomial hj
  rw [hzero, Polynomial.coeff_zero] at hcoeff
  have hdvd : modulus ∣ (row (j + 1)).toNat := (ZMod.natCast_eq_zero_iff _ _).mp hcoeff.symm
  exact BitVec.eq_of_toNat_eq (Nat.eq_zero_of_dvd_of_lt hdvd (Nat.lt_trans (row (j + 1)).isLt (by decide)))

/-- **Rows that are right for every key.** -/
theorem matches_all_keys_iff (hcount : count ≤ 2 ^ 32) :
    (∀ u : VerificationEngine, u.checksumKey.toNat < modulus → u.MatchesPolynomial row count) ↔
      ∀ j < count, (row j).toNat ≤ if j = 0 then 2 else 0 := by
  rcases Nat.eq_zero_or_pos count with rfl | hpos
  · exact ⟨fun _ j hj => absurd hj (Nat.not_lt_zero j), fun _ u _ => Nat.ModEq.refl _⟩
  constructor
  · intro hall j hj
    have hzero : ∀ i, i + 1 < count → row (i + 1) = 0 := fun i hi => eq_zero_of_all_keys hcount hall hi
    cases j with
    | zero =>
        -- the largest key
        have hlast := (matches_first_iff (ofKey (BitVec.ofNat 128 (modulus - 1))) (by decide) hpos hzero).mp
          (hall _ (by decide))
        rw [checksumKey_ofKey, show (BitVec.ofNat 128 (modulus - 1)).toNat = modulus - 1 by decide] at hlast
        rw [if_pos rfl]
        by_contra hmore
        have hle : (modulus - 1) * 3 ≤ (modulus - 1) * (row 0).toNat := Nat.mul_le_mul_left _ (Nat.lt_of_not_le hmore)
        exact absurd (Nat.lt_of_le_of_lt hle hlast) (by decide)
    | succ i =>
        rw [hzero i hj]
        exact Nat.zero_le _
  · intro hrow u hkey
    have hfirst : (row 0).toNat ≤ 2 := hrow 0 hpos
    refine (matches_first_iff u hkey hpos fun j hj => ?_).mpr ?_
    · exact BitVec.eq_of_toNat_eq (Nat.le_zero.mp (hrow (j + 1) hj))
    · calc u.checksumKey.toNat * (row 0).toNat ≤ (modulus - 1) * 2 := Nat.mul_le_mul (Nat.le_pred_of_lt hkey) hfirst
        _ < 2 ^ 128 := by decide

end Row

/-- The row with a one at one place. -/
def unitRow (i : Nat) : Words := fun j => if j = i then 1 else 0

/-- The checksum of a unit row is a weight. -/
theorem weight_modEq_of_all_rows (hkey : v.checksumKey.toNat < modulus)
    (hall : ∀ row count, v.MatchesPolynomial row count) (j : Nat) :
    (v.weight j).toNat ≡ v.checksumKey.toNat ^ (j + 1) [MOD modulus] := by
  have hunit := hall (unitRow j) (j + 1)
  have hsum : v.weightedSum (unitRow j) (j + 1) = (v.weight j).toNat := by
    rw [weightedSum, sum_range_single (Nat.lt_succ_self j)]
    · simp [unitRow]
    · intro i _ hi
      simp [unitRow, hi]
  have hpoly : polynomial v.checksumKey.toNat (unitRow j) (j + 1) = v.checksumKey.toNat ^ (j + 1) := by
    rw [polynomial, sum_range_single (Nat.lt_succ_self j)]
    · simp [unitRow]
    · intro i _ hi
      simp [unitRow, hi]
  rwa [MatchesPolynomial, toNat_linearChecksum, hsum, hpoly,
    Nat.mod_eq_of_lt (Nat.lt_trans (v.weight_lt hkey j) (by decide))] at hunit

/-- **The key that is right for every row** is zero: with any other key the weights would be right, hence not zero, and
    the sum of enough of them wraps. -/
theorem matches_all_rows_iff (hkey : v.checksumKey.toNat < modulus) :
    (∀ row count, v.MatchesPolynomial row count) ↔ v.checksumKey.toNat = 0 := by
  constructor
  · intro hall
    by_contra hne
    have hweight := v.weight_modEq_of_all_rows hkey hall
    have hpos : ∀ j, 1 ≤ (v.weight j).toNat := by
      intro j
      rw [Nat.one_le_iff_ne_zero]
      intro hzero
      have hdvd := (hweight j).symm
      rw [hzero] at hdvd
      have hone := Nat.Coprime.eq_one_of_dvd ((coprime_modulus hne hkey).pow_left (j + 1)).symm
        (Nat.modEq_zero_iff_dvd.mp hdvd)
      exact absurd hone (by decide)
    have hright : ∀ n, v.weightedSum (fun _ => 1) n < 2 ^ 128 * modulus → v.weightedSum (fun _ => 1) n < 2 ^ 128 := by
      intro n hsmall
      refine (v.matches_iff_lt (modEq_sum_range fun j _ => ?_) hsmall).mp (hall _ n)
      rw [Nat.mul_comm]
      exact (hweight j).mul_left _
    have hleast : ∀ n, n ≤ v.weightedSum (fun _ => 1) n := by
      intro n
      have hle := List.card_nsmul_le_sum ((List.range n).map fun j => (v.weight j).toNat * 1) 1 (by
        intro x hx
        obtain ⟨j, -, rfl⟩ := List.mem_map.mp hx
        exact (hpos j).trans_eq (Nat.mul_one _).symm)
      rwa [List.length_map, List.length_range, smul_eq_mul, Nat.mul_one] at hle
    have hmost : v.weightedSum (fun _ => 1) (2 ^ 128) ≤ 2 ^ 128 * ((modulus - 1) * 1) :=
      v.weightedSum_le hkey (fun _ => Nat.le_refl 1) _
    refine absurd (hright (2 ^ 128) (Nat.lt_of_le_of_lt hmost ?_)) (Nat.not_lt.mpr (hleast (2 ^ 128)))
    exact Nat.mul_lt_mul_of_pos_left (by decide) (by decide)
  · intro hzero row count
    have hsmall : squaringSum v.checksumKey.toNat row count < 2 ^ 128 := by
      rw [hzero, squaringSum, List.sum_eq_zero]
      · decide
      · intro x hx
        obtain ⟨j, -, rfl⟩ := List.mem_map.mp hx
        simp
    exact (v.matches_iff_of_small hkey hsmall).mpr (.inl (by rw [hzero]; decide))

/-- The row that starts with 4 and goes on with zeros. -/
def fourThenZeros : Words := fun j => if j = 0 then 4 else 0

/-- **No length but zero is safe**: with the key `2 ^ 126` the product with the first element wraps to 0, while the
    polynomial is `2 ^ 128`. -/
theorem not_matches_fourThenZeros (n : Nat) :
    ¬ (ofKey (1#128 <<< 126)).MatchesPolynomial fourThenZeros (n + 1) := by
  rw [matches_first_iff _ (by decide) (Nat.succ_pos n) (by simp [fourThenZeros])]
  decide

/-- **When the checksum is the documented polynomial.** Nothing wraps if `∑ P_j * s ^ (2 ^ j)` is below `2 ^ 128`, and
    then it is so exactly for the keys 0 and 1 and for rows that are zero after their second element. Where something
    wraps: for one element exactly if the product does not, and for two and a key below `2 ^ 64` exactly if the sum does
    not. A row is right for every key exactly if it is 0, 1 or 2 followed by zeros, and a key is right for every row
    exactly if it is zero. All keys and all rows of a length are right for the empty row only. -/
theorem checksum_polynomial_iff (v : VerificationEngine) (row : Words) (count : Nat)
    (hkey : v.checksumKey.toNat < modulus) :
    (squaringSum v.checksumKey.toNat row count < 2 ^ 128 →
      (v.MatchesPolynomial row count ↔ v.checksumKey.toNat ≤ 1 ∨ ∀ j, 2 ≤ j → j < count → row j = 0)) ∧
    (v.MatchesPolynomial row 1 ↔ v.checksumKey.toNat * (row 0).toNat < 2 ^ 128) ∧
    (v.checksumKey.toNat < 2 ^ 64 → (v.MatchesPolynomial row 2 ↔
      v.checksumKey.toNat * (row 0).toNat + v.checksumKey.toNat ^ 2 % modulus * (row 1).toNat < 2 ^ 128)) ∧
    (count ≤ 2 ^ 32 →
      ((∀ u : VerificationEngine, u.checksumKey.toNat < modulus → u.MatchesPolynomial row count) ↔
        ∀ j < count, (row j).toNat ≤ if j = 0 then 2 else 0)) ∧
    ((∀ other n, v.MatchesPolynomial other n) ↔ v.checksumKey.toNat = 0) ∧
    ((∀ (u : VerificationEngine) (other : Words), u.checksumKey.toNat < modulus → u.MatchesPolynomial other count) ↔
      count = 0) := by
  refine ⟨fun hsmall => v.matches_iff_of_small hkey hsmall, ?_, fun hsmall => v.matches_two_iff hsmall row,
    fun hcount => matches_all_keys_iff hcount, v.matches_all_rows_iff hkey, ?_⟩
  · exact v.matches_first_iff hkey Nat.one_pos fun j hj => absurd hj (by omega)
  · constructor
    · intro hall
      by_contra hne
      obtain ⟨n, rfl⟩ := Nat.exists_eq_succ_of_ne_zero hne
      exact not_matches_fourThenZeros n (hall (ofKey (1#128 <<< 126)) fourThenZeros (by decide))
    · rintro rfl u other _
      exact Nat.ModEq.refl _

/-- With the key 3 the row 5, 7, 0 has the checksum `5 * 3 + 7 * 9`, as documented, and the row 5, 7, 2 has not. -/
theorem checksum_polynomial_key_three :
    (ofKey 3).MatchesPolynomial (fun j => [5, 7, 0].getD j 0) 3 ∧
    ((ofKey 3).linearChecksum (fun j => [5, 7, 0].getD j 0) 3).toNat = 78 ∧
    ¬ (ofKey 3).MatchesPolynomial (fun j => [5, 7, 2].getD j 0) 3 ∧
    ¬ ∀ u : VerificationEngine, u.checksumKey.toNat < modulus →
        u.MatchesPolynomial (fun j => [3, 0, 0].getD j 0) 3 := by
  refine ⟨?_, by decide, ?_, ?_⟩
  · refine ((checksum_polynomial_iff (ofKey 3) _ 3 (by decide)).1 (by decide)).mpr (.inr fun j hj hlt => ?_)
    obtain rfl : j = 2 := by omega
    rfl
  · rw [(checksum_polynomial_iff (ofKey 3) _ 3 (by decide)).1 (by decide)]
    exact fun h => absurd (h.resolve_left (by decide) 2 (by decide) (by decide)) (by decide)
  · rw [(checksum_polynomial_iff (ofKey 3) _ 3 (by decide)).2.2.2.1 (by decide)]
    exact fun h => absurd (h 0 (by decide)) (by decide)

/-- **The exponents are powers of two**: with the key 2 the checksum of the row 0, 0, 1 is `2 ^ 4`, and the polynomial
    is `2 ^ 3`. -/
theorem checksum_squares_key :
    (ofKey 2).checksumKey.toNat < modulus ∧
    ((ofKey 2).linearChecksum (fun j => if j = 2 then 1 else 0) 3).toNat = 16 ∧
    polynomial (ofKey 2).checksumKey.toNat (fun j => if j = 2 then 1 else 0) 3 = 8 ∧
    ¬ 16 ≡ 8 [MOD modulus] := by
  decide

end Pnm.Secure.VerificationEngine

import Pnm.Imdb.BitViews
import Pnm.Lib.ByteMem

/-!
# `Imdb.Avx2` — unpacking eight column values at a time

The model of `imdb/software_scan/avx2/load.h`, intrinsic by intrinsic. A 256-bit register is its 32 bytes or its
eight 32-bit lanes (`Mem.word`). The tables of `DecompressionConstants` are computed as the constructor computes
them. `loadWithDecompression_eq` says that block `b` of a column unpacks to its elements `8 * b` to
`8 * b + 7`, for every width from 1 to 18 and any contents of the storage.
-/

namespace Pnm.Imdb

open Pnm.Lib

/-- The eight 32-bit lanes of a register. -/
abbrev Lanes := Nat → BitVec 32

/-- The bytes of a storage of 32-bit words in memory. -/
def bytesOf (d : Words 32) : Mem := fun a => (d (a / 4)).extractLsb' (8 * (a % 4)) 8

/-- `_mm_shuffle_epi8` on a 16-byte lane. -/
def shuffleEpi8 (lane : Mem) (control : Nat → Nat) : Mem :=
  fun k => if 128 ≤ control k then 0 else lane (control k % 16)

/-- The low and the high 128-bit lane of a register. -/
def lowLane (r : Mem) : Mem := r

def highLane (r : Mem) : Mem := fun k => r (16 + k)

/-- `_mm256_set_m128i`. -/
def setM128i (high low : Mem) : Mem := fun k => if k < 16 then low k else high (k - 16)

/-- `_mm256_srlv_epi32` in one lane. -/
def srlvEpi32 (x : BitVec 32) (count : Nat) : BitVec 32 := if count < 32 then x >>> count else 0

/-! ## The tables -/

namespace DecompressionConstants

variable (entrySize : Nat)

/-- `value_shuffle_bytes`: where the bytes of a value are in its 128-bit lane. -/
def valueShuffleBytes (valueIndex k : Nat) : Nat :=
  let byteMin := valueIndex * entrySize / 8
  let byteMax := (entrySize * (valueIndex + 1) - 1) / 8
  if byteMin + k ≤ byteMax then (byteMin + k) % 16 else 0

/-- `shuffle_mask`; its halves are `shuffle_control_l` and `shuffle_control_h`. -/
def shuffleMask (k : Nat) : Nat := valueShuffleBytes entrySize (k / 4) (k % 4)

def shuffleControlL (k : Nat) : Nat := shuffleMask entrySize k

def shuffleControlH (k : Nat) : Nat := shuffleMask entrySize (16 + k)

/-- `align_shift`. -/
def alignShift (i : Nat) : Nat := i * entrySize % 8

/-- `value_mask`. -/
def valueMask : BitVec 32 := BitVec.ofNat 32 ((1 <<< entrySize) - 1)

/-- `crop_mask`: the bytes of the high half that come from the low lane. -/
def cropMask (k : Nat) : BitVec 8 :=
  if entrySize < 17 then 0xFF
  else if k < 12 then 0xFF
  else (if entrySize = 17 then 0x0000FFFF#32 else 0x000000FF#32).extractLsb' (8 * (k - 12)) 8

/-- `inverse_crop_mask`. -/
def inverseCropMask (k : Nat) : BitVec 8 := ~~~ cropMask entrySize k

end DecompressionConstants

open DecompressionConstants

/-! ## Shuffling and unpacking -/

/-- `singlelane_shuffle`. -/
def singlelaneShuffle (value : Mem) (controlH controlL : Nat → Nat) : Mem :=
  setM128i (shuffleEpi8 (lowLane value) controlH) (shuffleEpi8 (lowLane value) controlL)

/-- `crosslane_shuffle`. -/
def crosslaneShuffle (value : Mem) (controlH controlL : Nat → Nat) (crop inverseCrop : Nat → BitVec 8) : Mem :=
  let shuffledL := shuffleEpi8 (lowLane value) controlL
  let shuffledH := shuffleEpi8 (lowLane value) controlH
  let shuffledHExtra := shuffleEpi8 (highLane value) controlH
  setM128i (fun k => (shuffledH k &&& crop k) ||| (shuffledHExtra k &&& inverseCrop k)) shuffledL

/-- The shuffle `load_with_decompression` chooses. -/
def shuffle (entrySize : Nat) (data : Mem) : Mem :=
  if entrySize ≤ 16 then singlelaneShuffle data (shuffleControlH entrySize) (shuffleControlL entrySize)
  else
    crosslaneShuffle data (shuffleControlH entrySize) (shuffleControlL entrySize) (cropMask entrySize)
      (inverseCropMask entrySize)

/-- `load_with_decompression`, of the 32 bytes at `base`. -/
def loadWithDecompression (entrySize : Nat) (mem : Mem) (base : Nat) : Lanes :=
  let data : Mem := fun k => mem (base + k)
  let decompressed := shuffle entrySize data
  fun i => srlvEpi32 (decompressed.word (4 * i)) (alignShift entrySize i) &&& valueMask entrySize

/-! ## Where the bytes come from -/

/-- The byte of the loaded register that ends up in byte `k`. -/
def sourceByte (entrySize k : Nat) : Nat :=
  if 16 < entrySize ∧ 16 ≤ k ∧ cropMask entrySize (k - 16) = 0 then 16 + shuffleMask entrySize k
  else shuffleMask entrySize k

theorem shuffleMask_lt (entrySize k : Nat) : shuffleMask entrySize k < 16 := by
  unfold shuffleMask valueShuffleBytes
  simp only
  split
  · exact Nat.mod_lt _ (by decide)
  · decide

theorem shuffleEpi8_mask (lane : Mem) {entrySize k : Nat} {control : Nat → Nat} {c : Nat}
    (h : control k = shuffleMask entrySize c) : shuffleEpi8 lane control k = lane (shuffleMask entrySize c) := by
  have hlt := shuffleMask_lt entrySize c
  rw [shuffleEpi8, h, if_neg (by omega), Nat.mod_eq_of_lt hlt]

/-- The crop mask keeps or clears whole bytes. -/
theorem cropMask_cases (entrySize : Nat) {k : Nat} (hk : k < 16) :
    cropMask entrySize k = 0xFF ∨ cropMask entrySize k = 0 := by
  unfold cropMask
  split
  · exact .inl rfl
  · split
    · exact .inl rfl
    · have hbytes : ∀ q < 4, (0x0000FFFF#32).extractLsb' (8 * q) 8 = 0xFF ∨
          (0x0000FFFF#32).extractLsb' (8 * q) 8 = 0 := by
        decide
      have hbytes' : ∀ q < 4, (0x000000FF#32).extractLsb' (8 * q) 8 = 0xFF ∨
          (0x000000FF#32).extractLsb' (8 * q) 8 = 0 := by
        decide
      split
      · exact hbytes (k - 12) (by omega)
      · exact hbytes' (k - 12) (by omega)

/-- **Each byte of the shuffled register is a byte of the loaded one.** -/
theorem shuffle_apply (entrySize : Nat) (data : Mem) {k : Nat} (hk : k < 32) :
    shuffle entrySize data k = data (sourceByte entrySize k) := by
  unfold shuffle sourceByte
  by_cases hw : entrySize ≤ 16
  · rw [if_pos hw, if_neg (by omega), singlelaneShuffle, setM128i]
    split
    · exact shuffleEpi8_mask _ rfl
    · exact shuffleEpi8_mask _ (by rw [shuffleControlH, show 16 + (k - 16) = k by omega])
  · rw [if_neg hw, crosslaneShuffle]
    simp only [setM128i]
    by_cases hlow : k < 16
    · rw [if_pos hlow, if_neg (by omega)]
      exact shuffleEpi8_mask _ rfl
    · -- a byte of the high half comes from the lane the crop mask names
      have hcontrol : shuffleControlH entrySize (k - 16) = shuffleMask entrySize k := by
        rw [shuffleControlH, show 16 + (k - 16) = k by omega]
      have hones : (0xFF : BitVec 8) = BitVec.allOnes 8 := rfl
      rw [if_neg hlow, shuffleEpi8_mask _ hcontrol, shuffleEpi8_mask _ hcontrol, inverseCropMask]
      rcases cropMask_cases entrySize (show k - 16 < 16 by omega) with hcrop | hcrop
      · rw [if_neg (by rw [hcrop]; simp), hcrop, hones, lowLane]
        simp only [BitVec.and_allOnes, BitVec.not_allOnes, BitVec.and_zero, BitVec.or_zero]
      · rw [if_pos ⟨by omega, by omega, hcrop⟩, hcrop, highLane, show ~~~(0 : BitVec 8) = BitVec.allOnes 8 from rfl]
        simp only [BitVec.and_allOnes, show (0 : BitVec 8) = 0#8 from rfl, BitVec.and_zero, BitVec.zero_or]

/-- The four bytes of a value are taken from where the value is, for all 18 widths. -/
theorem sourceByte_eq : ∀ entrySize ≤ 18, ∀ j < 8, ∀ q < 4,
    j * entrySize / 8 + q ≤ (entrySize * (j + 1) - 1) / 8 →
      sourceByte entrySize (4 * j + q) = j * entrySize / 8 + q := by
  decide +kernel

/-! ## Unpacking -/

theorem getLsbD_bytesOf (d : Words 32) (a : Nat) {t : Nat} (ht : t < 8) :
    (bytesOf d a).getLsbD t = bitAt d (8 * a + t) := by
  rw [bytesOf, BitVec.getLsbD_extractLsb', decide_eq_true ht, Bool.true_and, bitAt,
    show (8 * a + t) / 32 = a / 4 by omega, show (8 * a + t) % 32 = 8 * (a % 4) + t by omega]

theorem getLsbD_valueMask {entrySize : Nat} (hw : entrySize ≤ 32) (k : Nat) :
    (valueMask entrySize).getLsbD k = decide (k < entrySize) := by
  rw [valueMask, Nat.one_shiftLeft, BitVec.getLsbD_ofNat, Nat.testBit_two_pow_sub_one]
  by_cases hk : k < entrySize <;> simp [hk]
  omega

/-- **Unpacking a block**: lane `j` is made of the bits from `j * entrySize` on. -/
theorem getLsbD_loadWithDecompression {entrySize : Nat} (hw : entrySize ≤ 18) (mem : Mem) (base : Nat) {j : Nat}
    (hj : j < 8) (k : Nat) :
    (loadWithDecompression entrySize mem base j).getLsbD k = (decide (k < entrySize) &&
      (mem (base + (j * entrySize + k) / 8)).getLsbD ((j * entrySize + k) % 8)) := by
  have hshift : alignShift entrySize j = j * entrySize % 8 := rfl
  rw [loadWithDecompression, BitVec.getLsbD_and, getLsbD_valueMask (by omega), Bool.and_comm]
  by_cases hk : k < entrySize
  · have hlast : j * entrySize + k ≤ entrySize * (j + 1) - 1 := by
      rw [Nat.mul_succ, Nat.mul_comm]
      omega
    have hbyte := sourceByte_eq entrySize hw j hj ((alignShift entrySize j + k) / 8) (by omega)
      (by rw [hshift]; omega)
    rw [decide_eq_true hk, srlvEpi32, if_pos (by omega), BitVec.getLsbD_ushiftRight, Mem.getLsbD_word,
      decide_eq_true (by omega), shuffle_apply _ _ (by omega), hbyte]
    rw [hshift, show j * entrySize / 8 + (j * entrySize % 8 + k) / 8 = (j * entrySize + k) / 8 by omega,
      show (j * entrySize % 8 + k) % 8 = (j * entrySize + k) % 8 by omega, Bool.true_and]
  · simp [hk]

/-- **Block `b` of a column unpacks to its elements from `8 * b` on**, whatever the storage holds. -/
theorem loadWithDecompression_eq {c : BitCompressed 32} (hw : c.valueBits ≤ 18) (b : Nat) {j : Nat} (hj : j < 8) :
    loadWithDecompression c.valueBits (bytesOf c.data) (b * c.valueBits) j = c.getValue (8 * b + j) := by
  apply BitVec.eq_of_getLsbD_eq
  intro k _
  have hpos : 8 * (b * c.valueBits + (j * c.valueBits + k) / 8) + (j * c.valueBits + k) % 8
      = (8 * b + j) * c.valueBits + k := by
    rw [Nat.add_mul, Nat.mul_assoc]
    omega
  rw [getLsbD_loadWithDecompression hw _ _ hj, BitCompressed.getLsbD_getValue (by omega),
    getLsbD_bytesOf _ _ (Nat.mod_lt _ (by decide)), hpos]

/-- **The eight lanes of a load are eight element reads**, in order, at each of the supported widths. -/
theorem load_lanes_eq_values {c : BitCompressed 32} (hw : 1 ≤ c.valueBits ∧ c.valueBits ≤ 18) (b : Nat) :
    (List.range 8).map (loadWithDecompression c.valueBits (bytesOf c.data) (b * c.valueBits))
      = (List.range 8).map fun j => c.getValue (8 * b + j) :=
  List.map_congr_left fun _ hj => loadWithDecompression_eq hw.2 b (List.mem_range.mp hj)

/-- Arbitrary bits at width 17, whose last value lies across the middle of the register. -/
theorem load_lanes_eq_values_across :
    let c : BitCompressed 32 := ⟨17, 16, fun i => BitVec.ofNat 32 (0x9E3779B1 * (i + 1))⟩
    (List.range 8).map (loadWithDecompression 17 (bytesOf c.data) (1 * 17))
      = (List.range 8).map fun j => c.getValue (8 * 1 + j) :=
  load_lanes_eq_values (c := ⟨17, 16, fun i => BitVec.ofNat 32 (0x9E3779B1 * (i + 1))⟩) (by decide) 1

end Pnm.Imdb

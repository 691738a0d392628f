import Mathlib.Data.Nat.Bitwise
import Mathlib.Tactic.Common

/-!
# `Imdb.BitViews` — packed columns and bit vectors

The model of `pnmlib/imdb/bit_common.h`, `bit_views.h` and `bit_containers.h`, for any storage width `s` (the
number of bits of `T`). A storage is a sequence of words; position `p` of its bit stream is bit `p % s` of word
`p / s` (`bitAt`). Element `i` of a packed column occupies positions `i * valueBits` and following, and value `v` of
a bit vector is position `v`; all facts about the containers are stated through these positions.
-/

namespace Pnm.Imdb

/-- `bitutils::align_size`, for an alignment that is a power of two. -/
def alignSize (size align : Nat) : Nat := (size + align - 1) - (size + align - 1) % align

/-- `bitutils::aligned_storage_size<T>`: the number of elements of a type of `sizeofT` bytes. -/
def alignedStorageSize (sizeofT bitsCount bitAlign : Nat) : Nat :=
  let bytes := if bitsCount % 8 = 0 then bitsCount / 8 else bitsCount / 8 + 1
  alignSize (alignSize bytes sizeofT) (bitAlign / 8) / sizeofT

/-- `details::compressed_vector_storage_size<T>`. -/
def compressedVectorStorageSize (sizeofT valueBitSize N : Nat) : Nat :=
  alignedStorageSize sizeofT (valueBitSize * N + 512) 512

/-- `details::bit_vector_storage_size<T>`. -/
def bitVectorStorageSize (sizeofT maxValue : Nat) : Nat := alignedStorageSize sizeofT maxValue 512

theorem alignSize_ge (size align : Nat) (h : 0 < align) : size ≤ alignSize size align := by
  have := Nat.mod_lt (size + align - 1) h
  unfold alignSize
  omega

/-- **A storage has room for all the bits it is asked for.** -/
theorem le_alignedStorageSize {sizeofT : Nat} (h : sizeofT ∣ 64) (bitsCount : Nat) :
    bitsCount ≤ 8 * sizeofT * alignedStorageSize sizeofT bitsCount 512 := by
  obtain ⟨bytes, hbytes, hbits⟩ : ∃ bytes, (if bitsCount % 8 = 0 then bitsCount / 8 else bitsCount / 8 + 1) = bytes ∧
      bitsCount ≤ 8 * bytes := ⟨_, rfl, by split <;> omega⟩
  have hword := alignSize_ge bytes sizeofT (Nat.pos_of_dvd_of_pos h (by decide))
  have hwhole := alignSize_ge (alignSize bytes sizeofT) 64 (by decide)
  have hmod : alignSize (alignSize bytes sizeofT) 64 % 64 = 0 := by
    conv_lhs => unfold alignSize
    omega
  have hcount := Nat.mul_div_cancel' (Nat.dvd_trans h (Nat.dvd_of_mod_eq_zero hmod))
  unfold alignedStorageSize
  simp only [hbytes, show 512 / 8 = 64 from rfl]
  rw [Nat.mul_assoc, hcount]
  omega

/-- A storage of words of `s` bits. -/
abbrev Words (s : Nat) := Nat → BitVec s

/-- Position `p` of the bit stream. -/
def bitAt {s : Nat} (d : Words s) (p : Nat) : Bool := (d (p / s)).getLsbD (p % s)

/-- `views::bit_compressed`. -/
structure BitCompressed (s : Nat) where
  valueBits : Nat
  size : Nat
  data : Words s

namespace BitCompressed

variable {s : Nat} (c : BitCompressed s)

/-- `value_mask_`. Words of less than 32 bits are shifted as 32-bit numbers, and the processor takes the count of a
    shift modulo the width: at the full width the mask of 8- and 16-bit words is all ones, and that of 32- and 64-bit
    words is zero. -/
def valueMask : BitVec s := (1#s <<< (c.valueBits % max s 32)) - 1#s

/-- `get_value`. -/
def getValue (i : Nat) : BitVec s :=
  let index := i * c.valueBits / s
  let shift := i * c.valueBits % s
  if c.valueBits + shift < s then (c.data index >>> shift) &&& c.valueMask
  else
    let part1Size := s - shift
    let part2Mask := c.valueMask >>> part1Size
    ((c.data (index + 1) &&& part2Mask) <<< part1Size) ||| (c.data index >>> shift)

/-- `set_value`, which only sets bits. -/
def setValue (i : Nat) (value : BitVec s) : BitCompressed s :=
  let index := i * c.valueBits / s
  let shift := i * c.valueBits % s
  let value := value &&& c.valueMask
  if c.valueBits + shift < s then
    { c with data := Function.update c.data index (c.data index ||| value <<< shift) }
  else
    let part1Size := s - shift
    let low := (value &&& (c.valueMask >>> (c.valueBits - part1Size))) <<< shift
    let data := Function.update c.data index (c.data index ||| low)
    { c with data := Function.update data (index + 1) (data (index + 1) ||| value >>> part1Size) }

/-- The loop of the constructor: store the values one after another, the next one at position `i`. -/
def setValues (i : Nat) : List (BitVec s) → BitCompressed s → BitCompressed s
  | [], c      => c
  | v :: vs, c => setValues (i + 1) vs (c.setValue i v)

/-- The constructor of `compressed_vector` from a range of values. -/
def ofValues (valueBits : Nat) (values : List (BitVec s)) : BitCompressed s :=
  setValues 0 values { valueBits := valueBits, size := values.length, data := fun _ => 0 }

variable {c} {i k : Nat}

theorem getLsbD_valueMask (hw : c.valueBits < s) (k : Nat) : c.valueMask.getLsbD k = decide (k < c.valueBits) := by
  have hpow : 2 ^ c.valueBits < 2 ^ s := Nat.pow_lt_pow_right (by decide) hw
  have hpos : 0 < 2 ^ c.valueBits := Nat.two_pow_pos _
  have hone : 1 < 2 ^ s := Nat.one_lt_two_pow (by omega)
  have hnat : c.valueMask.toNat = 2 ^ c.valueBits - 1 := by
    rw [valueMask, Nat.mod_eq_of_lt (Nat.lt_of_lt_of_le hw (Nat.le_max_left s 32)), BitVec.toNat_sub,
      BitVec.toNat_shiftLeft, BitVec.toNat_ofNat, Nat.mod_eq_of_lt hone,
      Nat.shiftLeft_eq, Nat.one_mul, Nat.mod_eq_of_lt hpow,
      show 2 ^ s - 1 + 2 ^ c.valueBits = (2 ^ c.valueBits - 1) + 2 ^ s by omega, Nat.add_mod_right,
      Nat.mod_eq_of_lt (by omega)]
  rw [BitVec.getLsbD, hnat, Nat.testBit_two_pow_sub_one]

/-- A position is found by its word and its place in the word. -/
theorem bitAt_add {d : Words s} {cell place : Nat} (h : place < s) :
    bitAt d (s * cell + place) = (d cell).getLsbD place := by
  have hs : 0 < s := by omega
  rw [bitAt, Nat.mul_add_div hs, Nat.div_eq_of_lt h, Nat.add_zero, Nat.mul_add_mod, Nat.mod_eq_of_lt h]

/-- **What `get_value` reads**: the positions of element `i`. -/
theorem getLsbD_getValue (hw : c.valueBits < s) (i k : Nat) :
    (c.getValue i).getLsbD k = (decide (k < c.valueBits) && bitAt c.data (i * c.valueBits + k)) := by
  have hs : 0 < s := by omega
  have hshift : i * c.valueBits % s < s := Nat.mod_lt _ hs
  have hsplit := Nat.div_add_mod (i * c.valueBits) s
  have hmask := getLsbD_valueMask hw
  generalize hindex : i * c.valueBits / s = index at hsplit
  generalize hsh : i * c.valueBits % s = shift at hsplit hshift
  rw [← hsplit, getValue, hindex, hsh]
  simp only
  split
  · -- the element lies in one word
    rename_i hone
    rw [BitVec.getLsbD_and, BitVec.getLsbD_ushiftRight, hmask]
    by_cases hk : k < c.valueBits
    · rw [Nat.add_assoc, bitAt_add (show shift + k < s by omega), Bool.and_comm]
    · simp [hk]
  · rename_i htwo
    rw [BitVec.getLsbD_or, BitVec.getLsbD_shiftLeft, BitVec.getLsbD_and, BitVec.getLsbD_ushiftRight,
      BitVec.getLsbD_ushiftRight, hmask]
    by_cases hk : k < c.valueBits
    · by_cases hlow : k < s - shift
      · rw [Nat.add_assoc, bitAt_add (show shift + k < s by omega)]
        simp [hk, hlow]
      · -- the rest of the element is at the start of the next word
        rw [show s * index + shift + k = s * (index + 1) + (k - (s - shift)) by rw [Nat.mul_succ]; omega,
          bitAt_add (show k - (s - shift) < s by omega), BitVec.getLsbD_of_ge (c.data index) (shift + k) (by omega)]
        simp [hk, hlow, show k < s by omega, show s - shift + (k - (s - shift)) < c.valueBits by omega]
    · rw [BitVec.getLsbD_of_ge (c.data index) (shift + k) (by omega)]
      simp [hk, show ¬ s - shift + (k - (s - shift)) < c.valueBits by omega]

@[simp] theorem valueBits_setValue (v : BitVec s) : (c.setValue i v).valueBits = c.valueBits := by
  simp only [setValue]
  split <;> rfl

@[simp] theorem size_setValue (v : BitVec s) : (c.setValue i v).size = c.size := by
  simp only [setValue]
  split <;> rfl

/-- An element that starts in word `index` reaches no word but this one and the next. -/
theorem not_in_element {index shift width cell place : Nat} (hplace : place < s) (hshift : shift < s)
    (hwidth : width < s) (hcell : cell < index ∨ index + 2 ≤ cell) :
    ¬ (s * index + shift ≤ s * cell + place ∧ s * cell + place < s * index + shift + width) := by
  rcases hcell with hbelow | habove
  · have hle := Nat.mul_le_mul_left s (Nat.succ_le_of_lt hbelow)
    rw [Nat.mul_succ] at hle
    omega
  · have hle := Nat.mul_le_mul_left s habove
    rw [Nat.mul_add] at hle
    omega

/-- **What `set_value` writes**: it adds the bits of the value at the positions of element `i`. -/
theorem bitAt_setValue (hw : c.valueBits < s) (i : Nat) (v : BitVec s) (p : Nat) :
    bitAt (c.setValue i v).data p = (bitAt c.data p ||
      (decide (i * c.valueBits ≤ p ∧ p < i * c.valueBits + c.valueBits) && v.getLsbD (p - i * c.valueBits))) := by
  have hs : 0 < s := by omega
  have hshift : i * c.valueBits % s < s := Nat.mod_lt _ hs
  have hsplit := Nat.div_add_mod (i * c.valueBits) s
  have hmask := getLsbD_valueMask hw
  generalize hindex : i * c.valueBits / s = index at hsplit
  generalize hsh : i * c.valueBits % s = shift at hsplit hshift
  obtain ⟨cell, place, hplace, rfl⟩ : ∃ cell place, place < s ∧ p = s * cell + place :=
    ⟨p / s, p % s, Nat.mod_lt _ hs, (Nat.div_add_mod p s).symm⟩
  rw [bitAt_add hplace, bitAt_add hplace, ← hsplit, setValue, hindex, hsh]
  simp only
  -- where the element lies relative to the word of the position
  have hcell : cell = index ∨ cell = index + 1 ∨ (cell < index ∨ index + 2 ≤ cell) := by omega
  have hnext : s * (index + 1) = s * index + s := Nat.mul_succ s index
  split
  · rename_i hone
    simp only [Function.update_apply]
    rcases hcell with rfl | rfl | hfar
    · rw [if_pos rfl, BitVec.getLsbD_or, BitVec.getLsbD_shiftLeft, BitVec.getLsbD_and, hmask]
      by_cases hlow : place < shift
      · simp [hlow]
      · rw [show s * cell + place - (s * cell + shift) = place - shift by omega]
        simp [hplace, hlow, show shift ≤ place by omega, Nat.sub_lt_iff_lt_add (show shift ≤ place by omega),
          Nat.add_assoc, Nat.add_comm c.valueBits shift, Bool.and_comm]
    · rw [if_neg (by omega), decide_eq_false (by omega), Bool.false_and, Bool.or_false]
    · rw [if_neg (by omega), decide_eq_false (not_in_element hplace hshift hw hfar), Bool.false_and, Bool.or_false]
  · rename_i htwo
    simp only [Function.update_apply]
    rcases hcell with rfl | rfl | hfar
    · rw [if_neg (by omega), if_pos rfl, BitVec.getLsbD_or, BitVec.getLsbD_shiftLeft, BitVec.getLsbD_and,
        BitVec.getLsbD_and, BitVec.getLsbD_ushiftRight, hmask, hmask]
      by_cases hlow : place < shift
      · simp [hlow]
      · rw [show s * cell + place - (s * cell + shift) = place - shift by omega]
        simp [hplace, hlow, show shift ≤ place by omega, show place - shift < c.valueBits by omega,
          show c.valueBits - (s - shift) + (place - shift) < c.valueBits by omega,
          show s * cell + place < s * cell + shift + c.valueBits by omega]
    · rw [if_pos rfl, if_neg (by omega), BitVec.getLsbD_or, BitVec.getLsbD_ushiftRight, BitVec.getLsbD_and, hmask,
        hnext]
      by_cases hin : s - shift + place < c.valueBits
      · rw [show s * index + s + place - (s * index + shift) = s - shift + place by omega, decide_eq_true hin,
          decide_eq_true (show _ ∧ _ from ⟨by omega, by omega⟩), Bool.and_true, Bool.true_and]
      · rw [decide_eq_false hin, decide_eq_false (show ¬ (_ ∧ _) from fun h => hin (by omega)), Bool.and_false,
          Bool.false_and]
    · rw [if_neg (by omega), if_neg (by omega), decide_eq_false (not_in_element hplace hshift hw hfar),
        Bool.false_and, Bool.or_false]

theorem valueBits_setValues (vs : List (BitVec s)) (c : BitCompressed s) (i : Nat) :
    (c.setValues i vs).valueBits = c.valueBits ∧ (c.setValues i vs).size = c.size := by
  induction vs generalizing c i with
  | nil => exact ⟨rfl, rfl⟩
  | cons v vs ih =>
      obtain ⟨h1, h2⟩ := ih (c.setValue i v) (i + 1)
      exact ⟨h1.trans (valueBits_setValue v), h2.trans (size_setValue v)⟩

/-! At the full width an element is a word. -/

theorem valueMask_full (hfull : c.valueBits = s) : c.valueMask = if s < 32 then BitVec.allOnes s else 0 := by
  rw [valueMask, hfull]
  split
  · rename_i hlt
    rw [Nat.max_eq_right hlt.le, Nat.mod_eq_of_lt hlt, BitVec.shiftLeft_eq_zero (Nat.le_refl s), BitVec.zero_sub,
      BitVec.neg_one_eq_allOnes]
  · rename_i hge
    rw [Nat.max_eq_left (Nat.le_of_not_lt hge), Nat.mod_self, BitVec.shiftLeft_zero, BitVec.sub_self]
    rfl

theorem getValue_full (hs : 0 < s) (hfull : c.valueBits = s) (i : Nat) : c.getValue i = c.data i := by
  simp only [getValue]
  rw [hfull, Nat.mul_div_cancel _ hs, Nat.mul_mod_left, if_neg (by omega), Nat.sub_zero,
    BitVec.ushiftRight_eq_zero (Nat.le_refl s), BitVec.and_zero, BitVec.zero_shiftLeft, BitVec.zero_or,
    BitVec.ushiftRight_zero]

theorem setValue_full (hs : 0 < s) (hfull : c.valueBits = s) (i : Nat) (v : BitVec s) :
    (c.setValue i v).data = Function.update c.data i (c.data i ||| v &&& c.valueMask) := by
  simp only [setValue]
  rw [hfull, Nat.mul_div_cancel _ hs, Nat.mul_mod_left, if_neg (by omega), Nat.sub_zero, Nat.sub_self,
    BitVec.ushiftRight_eq_zero (Nat.le_refl s), BitVec.ushiftRight_zero, BitVec.shiftLeft_zero, BitVec.and_assoc,
    BitVec.and_self]
  dsimp only
  -- nothing goes to the next word
  rw [BitVec.or_zero, Function.update_eq_self]

/-- The position of a bit of element `i` belongs to no other element. -/
theorem position_unique {w i j k : Nat} (hk : k < w) : (j * w ≤ i * w + k ∧ i * w + k < j * w + w) ↔ j = i := by
  constructor
  · rintro ⟨h1, h2⟩
    rcases Nat.lt_trichotomy j i with h | h | h
    · have := Nat.mul_le_mul_right w h
      rw [Nat.succ_mul] at this
      omega
    · exact h
    · have := Nat.mul_le_mul_right w h
      rw [Nat.succ_mul] at this
      omega
  · rintro rfl
    omega

/-- **A write adds the bits of the value to those of its element**, and leaves the other elements. -/
theorem getLsbD_getValue_setValue (hw : c.valueBits < s) (i j : Nat) (v : BitVec s) (k : Nat) :
    ((c.setValue i v).getValue j).getLsbD k
      = ((c.getValue j).getLsbD k || (decide (j = i) && (decide (k < c.valueBits) && v.getLsbD k))) := by
  have hbits := valueBits_setValue (c := c) (i := i) v
  rw [getLsbD_getValue (hbits.symm ▸ hw), getLsbD_getValue hw, hbits, bitAt_setValue hw]
  by_cases hk : k < c.valueBits
  · by_cases hji : j = i
    · subst hji
      rw [decide_eq_true ((position_unique hk).mpr rfl), Nat.add_sub_cancel_left]
      simp [hk]
    · rw [decide_eq_false fun h => hji ((position_unique hk).mp h).symm, decide_eq_false hji]
      simp
  · simp [hk]

/-- Storing values from position `i` on: element `j` gets the bits of its value. -/
theorem bitAt_setValues (vs : List (BitVec s)) {c : BitCompressed s} (hw : c.valueBits < s) (i : Nat) {j k : Nat}
    (hk : k < c.valueBits) :
    bitAt (c.setValues i vs).data (j * c.valueBits + k)
      = (bitAt c.data (j * c.valueBits + k) || (decide (i ≤ j) && (vs.getD (j - i) 0).getLsbD k)) := by
  induction vs generalizing c i with
  | nil => simp [setValues]
  | cons v vs ih =>
      have hbits := valueBits_setValue (c := c) (i := i) v
      have hih := ih (c := c.setValue i v) (hbits.symm ▸ hw) (i + 1) (hbits.symm ▸ hk)
      rw [hbits] at hih
      rw [setValues, hih, bitAt_setValue hw, Bool.or_assoc]
      congr 1
      by_cases hji : j = i
      · subst hji
        rw [decide_eq_true ((position_unique hk).mpr rfl), Nat.add_sub_cancel_left]
        simp
      · rw [decide_eq_false (fun h => hji ((position_unique hk).mp h).symm)]
        by_cases hle : i ≤ j
        · obtain ⟨m, rfl⟩ : ∃ m, j = i + 1 + m := ⟨j - (i + 1), by omega⟩
          rw [show i + 1 + m - (i + 1) = m by omega, show i + 1 + m - i = m + 1 by omega, List.getD_cons_succ]
          simp [show i ≤ i + 1 + m by omega]
        · simp [hle, show ¬ i + 1 ≤ j by omega]

@[simp] theorem valueBits_ofValues (w : Nat) (values : List (BitVec s)) : (ofValues w values).valueBits = w :=
  (valueBits_setValues values _ 0).1

@[simp] theorem size_ofValues (w : Nat) (values : List (BitVec s)) : (ofValues w values).size = values.length :=
  (valueBits_setValues values _ 0).2

/-- **A column built from values reads them back**, reduced to the value width; positions behind the last
    element read as zero. -/
theorem getValue_ofValues {w : Nat} (hw : w < s) (values : List (BitVec s)) (i : Nat) :
    ((ofValues w values).getValue i).toNat = (values.getD i 0).toNat % 2 ^ w := by
  have hbits := valueBits_ofValues w values
  refine Nat.eq_of_testBit_eq fun k => ?_
  have hread := getLsbD_getValue (c := ofValues w values) (hbits.symm ▸ hw) i k
  rw [hbits] at hread
  rw [Nat.testBit_mod_two_pow]
  show ((ofValues w values).getValue i).getLsbD k = (decide (k < w) && (values.getD i 0).getLsbD k)
  rw [hread]
  by_cases hk : k < w
  · have hset := bitAt_setValues values (c := { valueBits := w, size := values.length, data := fun _ => 0 }) hw 0
      (j := i) hk
    rw [show ofValues w values = setValues 0 values _ from rfl, hset]
    simp [bitAt]
  · simp [hk]

end BitCompressed

/-! ## Bit vectors -/

/-- `views::bit_vector_view`: a set of values below `size` (`max_value_`). -/
structure BitVectorView (s : Nat) where
  size : Nat
  data : Words s

namespace BitVectorView

variable {s : Nat} (b : BitVectorView s)

/-- The mask of `in_storage_bit_position_masked`. -/
def bitMask (s value : Nat) : BitVec s := 1#s <<< (value % s)

/-- `contains`. -/
def contains (value : Nat) : Bool :=
  if value ≥ b.size then false else (b.data (value / s) &&& bitMask s value) != 0

/-- `insert`. -/
def insert (value : Nat) : BitVectorView s :=
  { b with data := Function.update b.data (value / s) (b.data (value / s) ||| bitMask s value) }

/-- `erase`. -/
def erase (value : Nat) : BitVectorView s :=
  { b with data := Function.update b.data (value / s) (b.data (value / s) &&& ~~~ bitMask s value) }

/-- `clear`. -/
def clear : BitVectorView s := { b with data := fun _ => 0 }

/-- The constructor of `bit_vector` from a range of values and its upper limit. Without values it is the
    constructor from a limit. -/
def ofValues (s upperLimit : Nat) (values : List Nat) : BitVectorView s :=
  values.foldl (fun b v => b.insert v) { size := upperLimit, data := fun _ => 0 }

variable {b}

theorem getLsbD_bitMask (hs : 0 < s) (v k : Nat) : (bitMask s v).getLsbD k = decide (k = v % s) := by
  have hlt : v % s < s := Nat.mod_lt _ hs
  rw [bitMask, BitVec.getLsbD_shiftLeft, BitVec.getLsbD_one]
  by_cases hk : k = v % s
  · simp [hk, hlt, hs]
  · by_cases hge : k < v % s
    · simp [hk, hge]
    · simp [hk, hge, show k - v % s ≠ 0 by omega]

/-- Masking with one bit tests that bit. -/
theorem and_bitMask_ne_zero (hs : 0 < s) (x : BitVec s) (v : Nat) :
    ((x &&& bitMask s v) != 0) = x.getLsbD (v % s) := by
  rw [Bool.eq_iff_iff, bne_iff_ne]
  constructor
  · intro hne
    by_contra hbit
    refine hne (BitVec.eq_of_getLsbD_eq fun k _ => ?_)
    rw [BitVec.getLsbD_and, getLsbD_bitMask hs]
    by_cases hk : k = v % s
    · simpa [hk] using hbit
    · simp [hk]
  · intro hbit hzero
    have := congrArg (·.getLsbD (v % s)) hzero
    simp [BitVec.getLsbD_and, getLsbD_bitMask hs, hbit] at this

theorem contains_eq (hs : 0 < s) (v : Nat) : b.contains v = (decide (v < b.size) && bitAt b.data v) := by
  unfold contains
  split
  · simp [show ¬ v < b.size by omega]
  · rw [and_bitMask_ne_zero hs, decide_eq_true (by omega), Bool.true_and]
    rfl

/-- A value is found by its word and its place in the word. -/
theorem word_and_place {v p : Nat} (hword : p / s = v / s) : p % s = v % s ↔ p = v := by
  constructor
  · intro hplace
    rw [← Nat.div_add_mod p s, hword, hplace, Nat.div_add_mod]
  · rintro rfl
    rfl

theorem bitAt_insert (hs : 0 < s) (v p : Nat) : bitAt (b.insert v).data p = (bitAt b.data p || decide (p = v)) := by
  simp only [bitAt, insert, Function.update_apply]
  split
  · rename_i heq
    rw [BitVec.getLsbD_or, getLsbD_bitMask hs, heq, decide_eq_decide.mpr (word_and_place heq)]
  · rename_i hne
    rw [decide_eq_false (fun h : p = v => hne (by rw [h])), Bool.or_false]

theorem bitAt_erase (hs : 0 < s) (v p : Nat) : bitAt (b.erase v).data p = (bitAt b.data p && !decide (p = v)) := by
  simp only [bitAt, erase, Function.update_apply]
  split
  · rename_i heq
    rw [BitVec.getLsbD_and, BitVec.getLsbD_not, getLsbD_bitMask hs, heq, decide_eq_decide.mpr (word_and_place heq),
      decide_eq_true (Nat.mod_lt p hs), Bool.true_and]
  · rename_i hne
    rw [decide_eq_false (fun h : p = v => hne (by rw [h])), Bool.not_false, Bool.and_true]

theorem bitAt_clear (p : Nat) : bitAt b.clear.data p = false := by
  simp [bitAt, clear]

/-- **A bit vector built from values contains exactly these.** -/
theorem bitAt_ofValues (hs : 0 < s) (limit : Nat) (values : List Nat) (p : Nat) :
    bitAt (ofValues s limit values).data p = decide (p ∈ values) := by
  have hfold : ∀ (b : BitVectorView s), bitAt (values.foldl (fun b v => b.insert v) b).data p
      = (bitAt b.data p || decide (p ∈ values)) := by
    induction values with
    | nil => simp
    | cons v values ih =>
        intro b
        rw [List.foldl_cons, ih, bitAt_insert hs, Bool.or_assoc]
        congr 1
        rw [← Bool.decide_or, decide_eq_decide, List.mem_cons]
  rw [ofValues, hfold]
  simp [bitAt]

theorem size_ofValues (limit : Nat) (values : List Nat) : (ofValues s limit values).size = limit := by
  have hfold : ∀ (b : BitVectorView s), (values.foldl (fun b v => b.insert v) b).size = b.size := by
    induction values with
    | nil => exact fun _ => rfl
    | cons v values ih => exact fun b => ih (b.insert v)
  exact hfold _

end BitVectorView

end Pnm.Imdb

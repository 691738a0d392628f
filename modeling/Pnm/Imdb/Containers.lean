import Pnm.Imdb.BitViews
import Pnm.Lib.Walk

/-!
# `Imdb.Containers` — packed columns with storage of their own

The model of `containers::compressed_vector` in `bit_containers.h`. The container is the view of `bit_views.h` over
words that it has allocated; here every access goes to these words, and an access outside them has no result. An
operation that returns has touched allocated words only.

`view` forgets the storage. Inside the storage the operations are those of the view (`getValue_eq`, `setValue_eq`), so
what is known of packed columns holds for the container.
-/

namespace Pnm.Imdb

open Pnm.Lib

/-- The types of storage words. -/
inductive StorageType where
  | uint8
  | uint16
  | uint32
  | uint64
deriving DecidableEq

/-- `sizeof`. -/
def StorageType.sizeof : StorageType → Nat
  | uint8  => 1
  | uint16 => 2
  | uint32 => 4
  | uint64 => 8

/-- `storage_bits`. -/
def StorageType.bits (T : StorageType) : Nat := 8 * T.sizeof

theorem StorageType.bits_pos (T : StorageType) : 0 < T.bits := by cases T <;> decide

/-! ## Storages -/

section Storage

variable {s n : Nat}

/-- The words of a storage, and zeros behind it. -/
def wordsOf (words : Vector (BitVec s) n) : Words s := fun i => words[i]?.getD 0

/-- `data_[i] = f(data_[i])`. -/
def modifyWord (words : Vector (BitVec s) n) (i : Nat) (f : BitVec s → BitVec s) : Option (Vector (BitVec s) n) := do
  let word ← words[i]?
  some (words.setIfInBounds i (f word))

variable (words : Vector (BitVec s) n) {i : Nat}

theorem getElem?_words (hi : i < n) : words[i]? = some (wordsOf words i) := by
  simp [wordsOf, hi]

/-- **A write inside the storage** changes its word only. -/
theorem modifyWord_eq (hi : i < n) (f : BitVec s → BitVec s) :
    ∃ words', modifyWord words i f = some words' ∧
      wordsOf words' = Function.update (wordsOf words) i (f (wordsOf words i)) := by
  refine ⟨words.setIfInBounds i (f (wordsOf words i)), ?_, ?_⟩
  · rw [modifyWord, getElem?_words words hi]
    rfl
  · funext j
    rw [Function.update_apply]
    split
    · rename_i heq
      rw [heq, wordsOf, Vector.getElem?_setIfInBounds_self_of_lt hi, Option.getD_some]
    · rename_i hne
      rw [wordsOf, Vector.getElem?_setIfInBounds_ne (Ne.symm hne), wordsOf]

theorem wordsOf_replicate : wordsOf (Vector.replicate n (0 : BitVec s)) = fun _ => 0 := by
  funext j
  rw [wordsOf, Vector.getElem?_replicate]
  split <;> rfl

end Storage

/-- A storage has room for all the bits it is asked for. -/
theorem le_storageSize (T : StorageType) (bitsCount : Nat) :
    bitsCount ≤ T.bits * alignedStorageSize T.sizeof bitsCount 512 :=
  le_alignedStorageSize (by cases T <;> decide) bitsCount

/-! ## Compressed vectors -/

/-- `containers::compressed_vector`, with the storage of `allocate`. -/
structure CompressedVector (T : StorageType) where
  valueBits : Nat
  size : Nat
  words : Vector (BitVec T.bits) (compressedVectorStorageSize T.sizeof valueBits size)

namespace CompressedVector

variable {T : StorageType} (c : CompressedVector T)

/-- The view of the container. -/
def view : BitCompressed T.bits := { valueBits := c.valueBits, size := c.size, data := wordsOf c.words }

@[simp] theorem view_valueBits : c.view.valueBits = c.valueBits := rfl

@[simp] theorem view_size : c.view.size = c.size := rfl

@[simp] theorem view_data : c.view.data = wordsOf c.words := rfl

/-- `get_value`. -/
def getValue (i : Nat) : Option (BitVec T.bits) := do
  let index := i * c.valueBits / T.bits
  let shift := i * c.valueBits % T.bits
  if c.valueBits + shift < T.bits then
    let word ← c.words[index]?
    some ((word >>> shift) &&& c.view.valueMask)
  else
    let part1Size := T.bits - shift
    let part2Mask := c.view.valueMask >>> part1Size
    let next ← c.words[index + 1]?
    let word ← c.words[index]?
    some (((next &&& part2Mask) <<< part1Size) ||| (word >>> shift))

/-- `set_value`, and the assignment through `operator[]`. -/
def setValue (i : Nat) (value : BitVec T.bits) : Option (CompressedVector T) := do
  let index := i * c.valueBits / T.bits
  let shift := i * c.valueBits % T.bits
  let value := value &&& c.view.valueMask
  if c.valueBits + shift < T.bits then
    let words ← modifyWord c.words index fun word => word ||| value <<< shift
    some { c with words := words }
  else
    let part1Size := T.bits - shift
    let low := (value &&& (c.view.valueMask >>> (c.valueBits - part1Size))) <<< shift
    let words ← modifyWord c.words index fun word => word ||| low
    let words ← modifyWord words (index + 1) fun word => word ||| value >>> part1Size
    some { c with words := words }

/-- The loop of the constructor; the next value goes to position `i`. -/
def setValues (i : Nat) : List Nat → CompressedVector T → Option (CompressedVector T)
  | [], c      => some c
  | v :: vs, c => do
      let c ← c.setValue i (BitVec.ofNat T.bits v)
      setValues (i + 1) vs c

/-- The constructor from a range of values, which `set_value` converts to the storage type. -/
def ofValues (valueBits : Nat) (values : List Nat) : Option (CompressedVector T) :=
  setValues 0 values { valueBits := valueBits, size := values.length, words := Vector.replicate _ 0 }

/-- The iterators: `begin()` is at 0, `end()` at `size()`. -/
def walk : Walk Nat (BitVec T.bits) where
  stop i := i == c.size
  value i := c.getValue i
  next i := some (i + 1)

variable {c} {i : Nat}

/-- **Both words of an element are allocated.** -/
theorem index_lt (hi : i < c.size) :
    i * c.valueBits / T.bits + 1 < compressedVectorStorageSize T.sizeof c.valueBits c.size := by
  have hroom := le_storageSize T (c.valueBits * c.size + 512)
  have hstart : i * c.valueBits ≤ c.valueBits * c.size := by
    rw [Nat.mul_comm]
    exact Nat.mul_le_mul_left _ hi.le
  have hbits : T.bits ≤ 64 := by cases T <;> decide
  rw [← Nat.add_div_right _ T.bits_pos, Nat.div_lt_iff_lt_mul T.bits_pos, Nat.mul_comm _ T.bits]
  unfold compressedVectorStorageSize
  omega

/-- **A read of an element stays inside the storage** and reads what the view reads. -/
theorem getValue_eq (hi : i < c.size) : c.getValue i = some (c.view.getValue i) := by
  have hnext := getElem?_words c.words (index_lt hi)
  have hword := getElem?_words c.words (Nat.lt_of_succ_lt (index_lt hi))
  unfold getValue BitCompressed.getValue
  by_cases hone : c.valueBits + i * c.valueBits % T.bits < T.bits
  · rw [if_pos hone, hword]
    exact congrArg some (if_pos hone).symm
  · rw [if_neg hone, hnext, hword]
    exact congrArg some (if_neg hone).symm

/-- **A write of an element stays inside the storage** and writes what the view writes. -/
theorem setValue_eq (hi : i < c.size) (value : BitVec T.bits) :
    ∃ c', c.setValue i value = some c' ∧ c'.view = c.view.setValue i value := by
  have hlt := index_lt hi
  unfold setValue BitCompressed.setValue
  by_cases hone : c.valueBits + i * c.valueBits % T.bits < T.bits
  · obtain ⟨words, hwords, hdata⟩ := modifyWord_eq c.words (Nat.lt_of_succ_lt hlt)
      fun word => word ||| (value &&& c.view.valueMask) <<< (i * c.valueBits % T.bits)
    refine ⟨{ c with words := words }, ?_, Eq.trans ?_ (if_pos hone).symm⟩
    · rw [if_pos hone, hwords]
      rfl
    · rw [view, hdata]
      rfl
  · -- the low part of the value goes to its word, the rest to the next one
    obtain ⟨words, hwords, hdata⟩ := modifyWord_eq c.words (Nat.lt_of_succ_lt hlt)
      fun word => word ||| (value &&& c.view.valueMask &&& c.view.valueMask >>>
        (c.valueBits - (T.bits - i * c.valueBits % T.bits))) <<< (i * c.valueBits % T.bits)
    obtain ⟨words', hwords', hdata'⟩ := modifyWord_eq words hlt
      fun word => word ||| (value &&& c.view.valueMask) >>> (T.bits - i * c.valueBits % T.bits)
    refine ⟨{ c with words := words' }, ?_, Eq.trans ?_ (if_neg hone).symm⟩
    · rw [if_neg hone]
      simp only [hwords, hwords', Option.bind_eq_bind, Option.bind_some]
    · rw [view, hdata', hdata]
      rfl

/-- The loop of the constructor stays inside the storage. -/
theorem setValues_eq (vs : List Nat) {c : CompressedVector T} (h : i + vs.length ≤ c.size) :
    ∃ c', setValues i vs c = some c' ∧ c'.view = c.view.setValues i (vs.map (BitVec.ofNat T.bits)) := by
  induction vs generalizing c i with
  | nil => exact ⟨c, rfl, rfl⟩
  | cons v vs ih =>
      rw [List.length_cons] at h
      obtain ⟨next, hset, hview⟩ := setValue_eq (c := c) (i := i) (by omega) (BitVec.ofNat T.bits v)
      have hsize : next.size = c.size := by
        have := congrArg BitCompressed.size hview
        rwa [BitCompressed.size_setValue] at this
      obtain ⟨c', hrest, hview'⟩ := ih (c := next) (i := i + 1) (by omega)
      refine ⟨c', ?_, ?_⟩
      · rw [setValues, hset]
        exact hrest
      · rw [hview', hview, List.map_cons, BitCompressed.setValues]

/-- A container built from a range is the column with its values. -/
theorem ofValues_eq (w : Nat) (values : List Nat) :
    ∃ c : CompressedVector T, ofValues w values = some c ∧
      c.view = BitCompressed.ofValues w (values.map (BitVec.ofNat T.bits)) := by
  obtain ⟨c, hbuild, hview⟩ := setValues_eq (T := T) values (i := 0)
    (c := { valueBits := w, size := values.length, words := Vector.replicate _ 0 }) (by simp)
  refine ⟨c, hbuild, ?_⟩
  rw [hview, BitCompressed.ofValues, view, wordsOf_replicate, List.length_map]

/-- The values of a container built from a range, as its view reads them. -/
theorem getValue_of_view {w : Nat} (hlt : w < T.bits) {values : List Nat}
    (hview : c.view = BitCompressed.ofValues w (values.map (BitVec.ofNat T.bits))) (hi : i < values.length) :
    (c.view.getValue i).toNat = values[i] % 2 ^ w := by
  rw [hview, BitCompressed.getValue_ofValues hlt, List.getD_eq_getElem?_getD, List.getElem?_map,
    List.getElem?_eq_getElem hi, Option.map_some, Option.getD_some, BitVec.toNat_ofNat]
  exact Nat.mod_mod_of_dvd _ (Nat.pow_dvd_pow 2 hlt.le)

/-- **A container reads back what it was built from**: construction, reads and a walk over its iterators touch allocated
    words only, and give the values reduced to the value width, in order. -/
theorem ofValues_reads_back (T : StorageType) {w : Nat} (hlt : w < T.bits) (values : List Nat) :
    ∃ c : CompressedVector T, ofValues w values = some c ∧ c.size = values.length ∧
      (∀ i, (hi : i < values.length) → ∃ x, c.getValue i = some x ∧ x.toNat = values[i] % 2 ^ w) ∧
      ∃ l, c.walk.Yields 0 l ∧ l.map BitVec.toNat = values.map (· % 2 ^ w) := by
  obtain ⟨c, hbuild, hview⟩ := ofValues_eq (T := T) w values
  have hsize : c.size = values.length := by
    have := congrArg BitCompressed.size hview
    rwa [BitCompressed.size_ofValues, List.length_map] at this
  refine ⟨c, hbuild, hsize, fun i hi => ⟨_, getValue_eq (hsize ▸ hi), getValue_of_view hlt hview hi⟩, ?_⟩
  refine ⟨(List.range c.size).map c.view.getValue, ?_, ?_⟩
  · exact Walk.yields_indexed (fun i => rfl) (fun i hi => getValue_eq hi) fun i _ => rfl
  · apply List.ext_getElem
    · simp [hsize]
    · intro i hi hi'
      have hlen : i < values.length := by simpa using hi'
      simpa using getValue_of_view hlt hview hlen

/-- The values 3, 300 and 7 in a column of five bits: 300 is reduced to 12, and lies across two words. -/
theorem ofValues_reads_back_three :
    ∃ c : CompressedVector .uint8, ofValues 5 [3, 300, 7] = some c ∧
      (List.range 3).map c.getValue = [some 3, some 12, some 7] ∧
      ∃ l, c.walk.Yields 0 l ∧ l.map BitVec.toNat = [3, 12, 7] := by
  obtain ⟨c, hbuild, -, -, hwalk⟩ := ofValues_reads_back .uint8 (w := 5) (by decide) [3, 300, 7]
  have hreads : (ofValues 5 [3, 300, 7] : Option (CompressedVector .uint8)).map
      (fun c => (List.range 3).map c.getValue) = some [some 3, some 12, some 7] := by decide +kernel
  rw [hbuild] at hreads
  exact ⟨c, hbuild, Option.some.inj hreads, hwalk⟩

/-! ## Writing an element again -/

/-- Position `i` holds the value `x`, reduced to the value width, and the other elements are as before. -/
def Replaces (c c' : CompressedVector T) (i : Nat) (x : BitVec T.bits) : Prop :=
  (c'.getValue i).map BitVec.toNat = some (x.toNat % 2 ^ c.valueBits) ∧
  ∀ j < c.size, j ≠ i → c'.getValue j = c.getValue j

/-- Writes at the full width of 32- and 64-bit words, whose mask is zero, have no effect. -/
def FullWidth (c : CompressedVector T) : Prop := c.valueBits = T.bits ∧ 32 ≤ T.bits

instance : Decidable c.FullWidth := inferInstanceAs (Decidable (_ ∧ _))

/-- **What a write leaves at its own position**: the bits that were set before remain. -/
theorem toNat_getValue_setValue (hw : c.valueBits ≤ T.bits) (x : BitVec T.bits) :
    ((c.view.setValue i x).getValue i).toNat =
      (c.view.getValue i).toNat ||| if c.FullWidth then 0 else x.toNat % 2 ^ c.valueBits := by
  rcases Nat.lt_or_eq_of_le hw with hlt | hfull
  · rw [if_neg fun h => Nat.ne_of_lt hlt h.1]
    apply Nat.eq_of_testBit_eq
    intro k
    have hbit := BitCompressed.getLsbD_getValue_setValue (c := c.view) hlt i i x k
    rw [decide_eq_true rfl, Bool.true_and] at hbit
    rw [Nat.testBit_or, Nat.testBit_mod_two_pow]
    exact hbit
  · have hafter : (c.view.setValue i x).valueBits = T.bits := (BitCompressed.valueBits_setValue x).trans hfull
    rw [BitCompressed.getValue_full T.bits_pos hafter, BitCompressed.getValue_full (c := c.view) T.bits_pos hfull,
      BitCompressed.setValue_full (c := c.view) T.bits_pos hfull, Function.update_self,
      BitCompressed.valueMask_full (c := c.view) hfull, BitVec.toNat_or]
    congr 1
    by_cases hsmall : T.bits < 32
    · rw [if_pos hsmall, if_neg fun h => Nat.not_le.mpr hsmall h.2, BitVec.and_allOnes, hfull,
        Nat.mod_eq_of_lt x.isLt]
    · rw [if_neg hsmall, if_pos ⟨hfull, Nat.le_of_not_lt hsmall⟩]
      simp

/-- The other elements are as they were. -/
theorem getValue_setValue_ne (hw : c.valueBits ≤ T.bits) {j : Nat} (hji : j ≠ i) (x : BitVec T.bits) :
    (c.view.setValue i x).getValue j = c.view.getValue j := by
  rcases Nat.lt_or_eq_of_le hw with hlt | hfull
  · apply BitVec.eq_of_getLsbD_eq
    intro k _
    rw [BitCompressed.getLsbD_getValue_setValue (c := c.view) hlt, decide_eq_false hji, Bool.false_and, Bool.or_false]
  · have hafter : (c.view.setValue i x).valueBits = T.bits := (BitCompressed.valueBits_setValue x).trans hfull
    rw [BitCompressed.getValue_full T.bits_pos hafter, BitCompressed.getValue_full (c := c.view) T.bits_pos hfull,
      BitCompressed.setValue_full (c := c.view) T.bits_pos hfull, Function.update_of_ne hji]

/-- **When a write replaces an element**: exactly if every bit that was set in it is set in the new value, and at the
    full width of 32- and 64-bit words exactly if it was the new value already. -/
theorem setValue_replaces_iff (hw : c.valueBits ≤ T.bits) (hi : i < c.size) (x : BitVec T.bits) :
    ∃ c' old, c.setValue i x = some c' ∧ c.getValue i = some old ∧
      (Replaces c c' i x ↔
        if c.FullWidth then old = x else old.toNat ||| x.toNat % 2 ^ c.valueBits = x.toNat % 2 ^ c.valueBits) := by
  obtain ⟨c', hset, hview⟩ := setValue_eq hi x
  have hsize : c'.size = c.size := by
    have := congrArg BitCompressed.size hview
    rwa [BitCompressed.size_setValue] at this
  have hothers : ∀ j < c.size, j ≠ i → c'.getValue j = c.getValue j := by
    intro j hj hji
    rw [getValue_eq hj, getValue_eq (hsize.symm ▸ hj), hview, getValue_setValue_ne hw hji]
  refine ⟨c', c.view.getValue i, hset, getValue_eq hi, ?_⟩
  unfold Replaces
  rw [getValue_eq (hsize.symm ▸ hi), hview, Option.map_some, toNat_getValue_setValue hw, Option.some_inj,
    and_iff_left hothers]
  split
  · rename_i hfull
    rw [Nat.or_zero, hfull.1, Nat.mod_eq_of_lt x.isLt, BitVec.toNat_inj]
  · exact Iff.rfl

/-- The values 9, 20 and 3 in a column of five bits; the second lies across two words. -/
def threeValues : CompressedVector .uint8 := (ofValues 5 [9, 20, 3]).getD ⟨5, 3, Vector.replicate _ 0⟩

/-- Two elements of 32 bits. -/
def wholeWords : CompressedVector .uint32 := ⟨32, 2, Vector.replicate _ 0⟩

/-- Over 20, the value 53 reads as 21 and its neighbours stay; a write of 7 to a whole word is lost. -/
theorem setValue_replaces_across_words :
    (∃ c', threeValues.setValue 1 53 = some c' ∧ Replaces threeValues c' 1 53 ∧
      (List.range 3).map c'.getValue = [some 9, some 21, some 3]) ∧
    ∃ c', wholeWords.setValue 1 7 = some c' ∧ ¬ Replaces wholeWords c' 1 7 := by
  constructor
  · obtain ⟨c', old, hset, hget, hiff⟩ :=
      setValue_replaces_iff (c := threeValues) (i := 1) (by decide +kernel) (by decide +kernel) 53
    have hold : threeValues.getValue 1 = some 20 := by decide +kernel
    obtain rfl := Option.some.inj (hget.symm.trans hold)
    refine ⟨c', hset, hiff.mpr (by decide +kernel), ?_⟩
    have hreads : (threeValues.setValue 1 53).map (fun c' => (List.range 3).map c'.getValue) =
        some [some 9, some 21, some 3] := by decide +kernel
    rw [hset] at hreads
    exact Option.some.inj hreads
  · obtain ⟨c', old, hset, hget, hiff⟩ :=
      setValue_replaces_iff (c := wholeWords) (i := 1) (by decide +kernel) (by decide +kernel) 7
    have hold : wholeWords.getValue 1 = some 0 := by decide +kernel
    obtain rfl := Option.some.inj (hget.symm.trans hold)
    exact ⟨c', hset, fun h => absurd (hiff.mp h) (by decide +kernel)⟩

/-- **A second write merges**: the element 5 of three bits, overwritten with 2, reads as 7. -/
theorem setValue_merges :
    ((ofValues 3 [5] : Option (CompressedVector .uint8)).bind fun c => (c.setValue 0 2).bind fun c' => c'.getValue 0)
      = some 7 := by
  decide +kernel

end CompressedVector

end Pnm.Imdb

import Mathlib.Algebra.BigOperators.Group.Finset.Basic
import Pnm.Secure.Tables

/-!
# `Secure.PadReduction` — two ways to sum up pads

The model of `EncryptionEngine::offset_transform_reduce` and `offset_transform_reduce_vec` for a vector of any length,
with the operation that adds element by element.

* The first goes through the vector four elements at a time. It starts each sum with the elements that are there, and
  adds the sum to them once more (`offsetTransformReduce_eq`).
* The second makes all pads first and then adds them row by row. Sizes are cut to 32 bits on the way, a row of no
  elements is a division by zero, and from `2 ^ 31` bytes on the pads are not all encrypted. Otherwise it is the
  function that the executor uses (`offsetTransformReduceVec_eq_words`).

`pad_reductions_iff` says when both are the initial vector plus the pads, for every cipher.
-/

namespace Pnm.Secure

open Pnm.Lib

namespace PadReduction

/-- The elements of a block. -/
def blockWords (b : BitVec 128) : List (BitVec 32) := (List.range 4).map (wordOf b)

/-- The rows of a `rowwise` view. Its constructor divides by the size of a row, and its iterator meets the end of the
    range only if the range consists of whole rows. -/
def rowsOf {α : Type} (rowSize : Nat) (xs : List α) : Except Fault (List (List α)) :=
  if rowSize = 0 ∨ xs.length % rowSize ≠ 0 then .error .trap
  else .ok ((List.range (xs.length / rowSize)).map fun r => (xs.drop (r * rowSize)).take rowSize)

section Reductions

variable (g : EncryptionEngine) (offsets : List (BitVec 64))

/-- `decrypt_block`. -/
def decryptBlock (data : List (BitVec 32)) (base offset : BitVec 64) : List (BitVec 32) :=
  List.zipWith (· + ·) data (blockWords (generateOtp g.aes 0x00 g.version (base + offset)))

/-- The loop of `offset_transform_reduce`, from a column on. -/
def reduceFrom (colOffset : BitVec 64) : List (BitVec 32) → Except Fault (List (BitVec 32))
  | []                             => .ok []
  | x₀ :: x₁ :: x₂ :: x₃ :: rest => do
      let dataSlice := offsets.foldl (fun sum offset => decryptBlock g sum offset colOffset) [x₀, x₁, x₂, x₃]
      let rest ← reduceFrom (colOffset + 16) rest
      .ok (List.zipWith (· + ·) dataSlice [x₀, x₁, x₂, x₃] ++ rest)
  | _                              => .error .trap

/-- `offset_transform_reduce`. -/
def offsetTransformReduce (init : List (BitVec 32)) : Except Fault (List (BitVec 32)) := reduceFrom g offsets 0 init

/-- `generate_otp_vec` for `size` elements. The size of a row is the 32-bit product of `otp_size` and `otps_count`; each
    row takes the next address. -/
def generateOtpVec (otpsCount : BitVec 32) (size : Nat) : Except Fault (List (BitVec 128)) :=
  let rowSize := (4 * otpsCount).toNat
  if rowSize = 0 ∨ size % rowSize ≠ 0 ∨ offsets.length < size / rowSize then .error .trap
  else
    orTrap (aesEncrypt g.aes ((offsets.take (size / rowSize)).flatMap fun address =>
      (List.range (rowSize / 4)).map fun n => seed 0x00 g.version (address + BitVec.ofNat 64 (16 * n))))

/-- `offset_transform_reduce_vec`. -/
def offsetTransformReduceVec (init : List (BitVec 32)) : Except Fault (List (BitVec 32)) := do
  let buffer ← generateOtpVec g offsets (BitVec.ofNat 32 (init.length / 4)) (offsets.length * init.length)
  let otpsRows ← rowsOf init.length (buffer.flatMap blockWords)
  .ok (otpsRows.foldl (fun sum row => List.zipWith (· + ·) sum row) init)

/-- The initial vector plus the pads at the offsets. -/
def padded (init : List (BitVec 32)) : List (BitVec 32) :=
  init.mapIdx fun e x => x + (offsets.map fun offset => g.padWord offset e).sum

end Reductions

/-! ## Four elements at a time -/

variable {g : EncryptionEngine} {offsets : List (BitVec 64)} {init : List (BitVec 32)}

/-- The pads of the next block. -/
theorem padWord_add (address : BitVec 64) (e : Nat) : g.padWord (address + 16) e = g.padWord address (e + 4) := by
  have hoffset : address + 16 + BitVec.ofNat 64 (16 * (e / 4)) = address + BitVec.ofNat 64 (16 * ((e + 4) / 4)) := by
    rw [Nat.add_div_right e (by decide), Nat.mul_succ, BitVec.ofNat_add, add_assoc, add_comm (16 : BitVec 64)]
    rfl
  rw [EncryptionEngine.padWord, EncryptionEngine.padWord, hoffset, Nat.add_mod_right]

/-- The pads of the first block. -/
theorem padWord_of_lt (address : BitVec 64) {j : Nat} (hj : j < 4) :
    g.padWord address j = wordOf (generateOtp g.aes 0x00 g.version address) j := by
  rw [EncryptionEngine.padWord, Nat.div_eq_of_lt hj, Nat.mod_eq_of_lt hj, Nat.mul_zero, BitVec.add_zero]

/-- The pads at the offsets, added to four elements. -/
theorem foldl_decryptBlock (g : EncryptionEngine) (offsets : List (BitVec 64)) (colOffset : BitVec 64)
    (x : Nat → BitVec 32) :
    offsets.foldl (fun sum offset => decryptBlock g sum offset colOffset) ((List.range 4).map x)
      = (List.range 4).map fun j => x j + (offsets.map fun offset => g.padWord (offset + colOffset) j).sum := by
  induction offsets generalizing x with
  | nil => simp
  | cons offset offsets ih =>
      have hstep : decryptBlock g ((List.range 4).map x) offset colOffset
          = (List.range 4).map fun j => x j + g.padWord (offset + colOffset) j := by
        rw [decryptBlock, blockWords, List.zipWith_map, List.zipWith_self]
        exact List.map_congr_left fun j hj => by rw [padWord_of_lt _ (List.mem_range.mp hj)]
      rw [List.foldl_cons, hstep, ih]
      simp only [List.map_cons, List.sum_cons, add_assoc]

/-- One turn of the loop, and the rest. -/
theorem reduceFrom_eq (colOffset : BitVec 64) {n : Nat} (hn : init.length = 4 * n) :
    reduceFrom g offsets colOffset init = .ok (init.mapIdx fun e x =>
      x + (offsets.map fun offset => g.padWord (offset + colOffset) e).sum + x) := by
  induction n generalizing init colOffset with
  | zero =>
      obtain rfl := List.length_eq_zero_iff.mp hn
      rfl
  | succ n ih =>
      match init, hn with
      | x₀ :: x₁ :: x₂ :: x₃ :: rest, hn =>
          have hrest : rest.length = 4 * n := by simpa [Nat.mul_succ] using hn
          have hsum := foldl_decryptBlock g offsets colOffset fun j => [x₀, x₁, x₂, x₃].getD j 0
          have hslice : (List.range 4).map (fun j => [x₀, x₁, x₂, x₃].getD j 0) = [x₀, x₁, x₂, x₃] := rfl
          rw [hslice] at hsum
          have hnext : ∀ offset e,
              g.padWord (offset + (colOffset + 16)) e = g.padWord (offset + colOffset) (e + 4) := by
            intro offset e
            rw [← add_assoc, padWord_add]
          rw [reduceFrom, hsum, ih (colOffset + 16) hrest]
          simp only [hnext, List.mapIdx_cons]
          show Except.ok _ = Except.ok _
          simp [List.range_succ]

/-- **Four elements at a time**: the initial elements are added twice. -/
theorem offsetTransformReduce_eq (hinit : init.length % 4 = 0) :
    offsetTransformReduce g offsets init = .ok (init.mapIdx fun e x =>
      x + (offsets.map fun offset => g.padWord offset e).sum + x) := by
  have hzero : ∀ offset : BitVec 64, offset + 0 = offset := add_zero
  rw [offsetTransformReduce, reduceFrom_eq 0 (Nat.mul_div_cancel' (Nat.dvd_of_mod_eq_zero hinit)).symm]
  simp only [hzero]

/-! ## Row by row -/

/-- The sizes survive their conversions: a row has elements, and is not cut. -/
def RowsFit (l count : Nat) : Prop := count % 2 ^ 32 ≠ 0 ∧ (l = 0 ∨ count < 2 ^ 32)

instance (l count : Nat) : Decidable (RowsFit l count) := inferInstanceAs (Decidable (_ ∧ _))

theorem toNat_rowSize {count : Nat} (hcount : count % 4 = 0) :
    (4 * BitVec.ofNat 32 (count / 4)).toNat = count % 2 ^ 32 := by
  rw [BitVec.toNat_mul, BitVec.toNat_ofNat, show (4 : BitVec 32).toNat = 4 from rfl, Nat.mul_mod_mod,
    Nat.mul_div_cancel' (Nat.dvd_of_mod_eq_zero hcount)]

/-- Rows that are cut are too many for the addresses. -/
theorem lt_div_of_cut {l count : Nat} (hl : l ≠ 0) (hcut : 2 ^ 32 ≤ count) (hrow : count % 2 ^ 32 ≠ 0) :
    l < l * count / (count % 2 ^ 32) := by
  have hlt : count % 2 ^ 32 < 2 ^ 32 := Nat.mod_lt _ (by decide)
  have hsplit : count % 2 ^ 32 + 2 ^ 32 ≤ count := by omega
  refine (Nat.le_div_iff_mul_le (Nat.pos_of_ne_zero hrow)).mpr ?_
  have hmore : count % 2 ^ 32 ≤ l * 2 ^ 32 := hlt.le.trans (Nat.le_mul_of_pos_left _ (Nat.pos_of_ne_zero hl))
  calc (l + 1) * (count % 2 ^ 32) = l * (count % 2 ^ 32) + count % 2 ^ 32 := Nat.succ_mul ..
    _ ≤ l * (count % 2 ^ 32) + l * 2 ^ 32 := Nat.add_le_add_left hmore _
    _ = l * (count % 2 ^ 32 + 2 ^ 32) := (Nat.mul_add ..).symm
    _ ≤ l * count := Nat.mul_le_mul_left l hsplit

/-- **The buffer of pads**, if the rows are what they should be. -/
theorem generateOtpVec_eq {count : Nat} (hcount : count % 4 = 0) :
    generateOtpVec g offsets (BitVec.ofNat 32 (count / 4)) (offsets.length * count) =
      if RowsFit offsets.length count then orTrap (Secure.generateOtpVec g.aes 0x00 g.version offsets (count / 4))
      else .error .trap := by
  rw [generateOtpVec, toNat_rowSize hcount]
  by_cases hfit : RowsFit offsets.length count
  · rw [if_pos hfit]
    obtain ⟨hrow, hempty | hshort⟩ := hfit
    · obtain rfl := List.length_eq_zero_iff.mp hempty
      rw [if_neg (by simpa using hrow)]
      simp [Secure.generateOtpVec]
    · rw [Nat.mod_eq_of_lt hshort] at hrow ⊢
      rw [if_neg (by simp [hrow, Nat.mul_div_cancel _ (Nat.pos_of_ne_zero hrow)]),
        Nat.mul_div_cancel _ (Nat.pos_of_ne_zero hrow), List.take_length]
      rfl
  · rw [if_neg hfit, if_pos]
    by_contra hok
    push Not at hok
    obtain ⟨hrow, -, hle⟩ := hok
    refine hfit ⟨hrow, ?_⟩
    by_contra hcut
    push Not at hcut
    exact absurd (lt_div_of_cut hcut.1 hcut.2 hrow) (Nat.not_lt.mpr hle)

/-- Row `k` holds the pads of address `k`. -/
theorem rowsOf_blockWords {buffer : List (BitVec 128)} {l w : Nat} (hw : 0 < w) (hbuffer : buffer.length = l * w) :
    rowsOf (4 * w) (buffer.flatMap blockWords) = .ok ((List.range l).map fun k =>
      (List.range (4 * w)).map fun e => wordOf (buffer.getD (k * w + e / 4) 0) (e % 4)) := by
  have hlength : (buffer.flatMap blockWords).length = l * (4 * w) := by
    rw [show buffer.flatMap blockWords = buffer.flatMap fun b => (List.range 4).map (wordOf b) from rfl,
      length_flatMap_range, hbuffer, Nat.mul_assoc, Nat.mul_comm w]
  have hrow : 0 < 4 * w := by omega
  rw [rowsOf, hlength, Nat.mul_mod_left, Nat.mul_div_cancel _ hrow, if_neg (by simp [hw.ne'])]
  congr 1
  refine List.map_congr_left fun k hk => List.ext_getElem ?_ fun e he he' => ?_
  · have hle := Nat.mul_le_mul_right (4 * w) (List.mem_range.mp hk)
    rw [Nat.succ_mul] at hle
    rw [List.length_take, List.length_drop, hlength, List.length_map, List.length_range]
    omega
  · rw [List.length_map, List.length_range] at he'
    have hindex : k * (4 * w) + e = (k * w + e / 4) * 4 + e % 4 := by
      rw [Nat.add_mul, Nat.mul_right_comm, Nat.mul_comm 4 w, ← Nat.mul_assoc, Nat.mul_right_comm, Nat.add_assoc,
        Nat.div_add_mod']
    have hblock : k * w + e / 4 < buffer.length := hbuffer ▸ row_add_lt (List.mem_range.mp hk) (by omega)
    have hword := getD_flatMap_range wordOf 4 buffer hblock (Nat.mod_lt e (by decide)) 0 0
    rw [← hindex] at hword
    rw [List.getElem_take, List.getElem_drop, List.getElem_map, List.getElem_range, ← hword]
    exact (List.getD_eq_getElem _ _ _).symm

/-- Rows of one length are added element by element. -/
theorem foldl_zipWith_add {c : Nat} (ks : List Nat) (row : Nat → Nat → BitVec 32) (x : Nat → BitVec 32) :
    (ks.map fun k => (List.range c).map (row k)).foldl (fun sum row => List.zipWith (· + ·) sum row)
        ((List.range c).map x)
      = (List.range c).map fun e => ks.foldl (fun sum k => sum + row k e) (x e) := by
  induction ks generalizing x with
  | nil => rfl
  | cons k ks ih =>
      rw [List.map_cons, List.foldl_cons, List.zipWith_map, List.zipWith_self, ih]
      rfl

/-- **The function that the executor uses**, if the rows are what they should be. -/
theorem offsetTransformReduceVec_eq_words (hinit : init.length % 4 = 0) :
    offsetTransformReduceVec g offsets init =
      if RowsFit offsets.length init.length then
        (g.offsetTransformReduceVec offsets init.length fun e => init.getD e 0).map fun out =>
          (List.range init.length).map out
      else .error .trap := by
  rw [offsetTransformReduceVec, generateOtpVec_eq hinit]
  by_cases hfit : RowsFit offsets.length init.length
  · rw [if_pos hfit, if_pos hfit, EncryptionEngine.offsetTransformReduceVec]
    cases hbuffer : Secure.generateOtpVec g.aes 0x00 g.version offsets (init.length / 4) with
    | none => rfl
    | some buffer =>
        obtain ⟨n, -, hlength, -⟩ := getD_generateOtpVec hbuffer
        have hwidth : 4 * (init.length / 4) = init.length := Nat.mul_div_cancel' (Nat.dvd_of_mod_eq_zero hinit)
        have hpos : 0 < init.length / 4 := by
          have := hfit.1
          omega
        have hrows := rowsOf_blockWords hpos hlength
        rw [hwidth] at hrows
        have hfold := foldl_zipWith_add (c := init.length) (List.range offsets.length)
          (fun k e => wordOf (buffer.getD (k * (init.length / 4) + e / 4) 0) (e % 4)) fun e => init.getD e 0
        have hself : (List.range init.length).map (fun e => init.getD e 0) = init :=
          (map_range_getD id init 0).trans (List.map_id init)
        rw [hself] at hfold
        show (rowsOf init.length (buffer.flatMap blockWords)).bind _ = _
        rw [hrows]
        exact congrArg Except.ok hfold
  · rw [if_neg hfit, if_neg hfit]
    rfl

/-! ## Pads that are left as seeds -/

/-- The offsets whose pad in column `q` lies behind the first `n` blocks. -/
def unencrypted (offsets : List (BitVec 64)) (w n q : Nat) : List (BitVec 64) :=
  ((List.range offsets.length).filter fun k => !decide (k * w + q < n)).map fun k => offsets.getD k 0

/-- The sums come out right for every cipher: in each column, an offset whose pads are not encrypted is there a
    multiple of `2 ^ 32` times. -/
def PadsCancel (offsets : List (BitVec 64)) (w : Nat) : Prop :=
  ∃ n, encryptedBlocks (offsets.length * w) = some n ∧ ∀ q < w, ∀ a, 2 ^ 32 ∣ (unencrypted offsets w n q).count a

/-- Replacing some of the terms of a sum. -/
theorem sum_map_ite_add {κ M : Type} [AddCommMonoid M] (P : κ → Bool) (f h : κ → M) (ks : List κ) :
    (ks.map fun k => if P k then f k else h k).sum + ((ks.filter fun k => !P k).map f).sum
      = (ks.map f).sum + ((ks.filter fun k => !P k).map h).sum := by
  induction ks with
  | nil => rfl
  | cons k ks ih =>
      cases hP : P k with
      | true =>
          simp only [List.map_cons, List.sum_cons, hP, if_true, List.filter_cons, Bool.not_true, Bool.false_eq_true,
            if_false, add_assoc, ih]
      | false =>
          simp only [List.map_cons, List.sum_cons, hP, Bool.false_eq_true, if_false, List.filter_cons, Bool.not_false,
            if_true]
          rw [add_add_add_comm, ih, add_comm (h k) (f k), add_add_add_comm]

/-- A sum whose terms all are there a multiple of `2 ^ 32` times. -/
theorem sum_map_eq_zero_of_counts {α : Type} [DecidableEq α] {l : List α} (h : ∀ a, 2 ^ 32 ∣ l.count a)
    (f : α → BitVec 32) : (l.map f).sum = 0 := by
  rw [Finset.sum_list_map_count]
  refine Finset.sum_eq_zero fun a _ => ?_
  obtain ⟨c, hc⟩ := h a
  have hzero : ((2 ^ 32 : Nat) : BitVec 32) = 0 := by decide
  rw [hc, nsmul_eq_mul, Nat.cast_mul, hzero, zero_mul, zero_mul]

/-- It makes no difference to element `j` of column `q` that some seeds are not encrypted. -/
def Unnoticed (g : EncryptionEngine) (offsets : List (BitVec 64)) (w n q j : Nat) : Prop :=
  ((unencrypted offsets w n q).map fun a => wordOf (seed 0x00 g.version (a + BitVec.ofNat 64 (16 * q))) j).sum
    = ((unencrypted offsets w n q).map fun a =>
        wordOf (generateOtp g.aes 0x00 g.version (a + BitVec.ofNat 64 (16 * q))) j).sum

section Columns

variable {w n q : Nat}

/-- The sum of the pads that were made, and the sum of the pads. -/
theorem sum_padBlock_eq_iff (j : Nat) :
    (((List.range offsets.length).map fun k => wordOf (padBlock g.aes 0x00 g.version (decide (k * w + q < n))
        (offsets.getD k 0 + BitVec.ofNat 64 (16 * q))) j).sum
      = (offsets.map fun offset =>
          wordOf (generateOtp g.aes 0x00 g.version (offset + BitVec.ofNat 64 (16 * q))) j).sum) ↔
    Unnoticed g offsets w n q j := by
  have hsplit := sum_map_ite_add (fun k => decide (k * w + q < n))
    (fun k => wordOf (generateOtp g.aes 0x00 g.version (offsets.getD k 0 + BitVec.ofNat 64 (16 * q))) j)
    (fun k => wordOf (seed 0x00 g.version (offsets.getD k 0 + BitVec.ofNat 64 (16 * q))) j)
    (List.range offsets.length)
  have hall := sum_map_range_getD
    (fun a => wordOf (generateOtp g.aes 0x00 g.version (a + BitVec.ofNat 64 (16 * q))) j) offsets 0
  rw [hall] at hsplit
  have hpad : ∀ k, wordOf (padBlock g.aes 0x00 g.version (decide (k * w + q < n))
      (offsets.getD k 0 + BitVec.ofNat 64 (16 * q))) j = if decide (k * w + q < n) then
        wordOf (generateOtp g.aes 0x00 g.version (offsets.getD k 0 + BitVec.ofNat 64 (16 * q))) j
      else wordOf (seed 0x00 g.version (offsets.getD k 0 + BitVec.ofNat 64 (16 * q))) j := by
    intro k
    rw [padBlock]
    split <;> rfl
  simp only [hpad, Unnoticed, unencrypted, List.map_map, Function.comp_def]
  constructor
  · intro heq
    rw [heq] at hsplit
    exact (add_left_cancel hsplit).symm
  · intro heq
    rw [heq] at hsplit
    exact add_right_cancel hsplit

/-- **A column is right for every cipher** exactly if the multiplicities are. -/
theorem column_iff (version : BitVec 32) :
    (∀ aes, ∀ j < 4, Unnoticed ⟨version, aes⟩ offsets w n q j) ↔ ∀ a, 2 ^ 32 ∣ (unencrypted offsets w n q).count a := by
  constructor
  · intro h a
    -- two ciphers that differ in the pads of this offset only
    let one : Cipher := fun b => if b = seed 0x00 version (a + BitVec.ofNat 64 (16 * q)) then onesBlock else 0
    have hzeros := h (constCipher 0) 3 (by decide)
    have hone := h one 3 (by decide)
    have hnone : ((unencrypted offsets w n q).map fun c =>
        wordOf (generateOtp (constCipher 0) 0x00 version (c + BitVec.ofNat 64 (16 * q))) 3).sum = 0 := by
      simp only [generateOtp, constCipher, wordOf_zero]
      simp
    have hword : ∀ c, wordOf (generateOtp one 0x00 version (c + BitVec.ofNat 64 (16 * q))) 3
        = if c == a then 1 else 0 := by
      intro c
      by_cases hc : c = a
      · subst hc
        rw [generateOtp, beq_self_eq_true, if_pos rfl, ← wordOf_onesBlock]
        exact congrArg (wordOf · 3) (if_pos rfl)
      · have hne : seed 0x00 version (c + BitVec.ofNat 64 (16 * q))
            ≠ seed 0x00 version (a + BitVec.ofNat 64 (16 * q)) :=
          fun heq => hc (add_right_cancel (seed_inj heq).2.2)
        rw [generateOtp, if_neg (by simpa using hc), ← wordOf_zero]
        exact congrArg (wordOf · 3) (if_neg hne)
    have hcount := (hzeros.symm.trans hone).symm
    rw [hnone] at hcount
    simp only [hword, sum_map_boole] at hcount
    have htoNat := congrArg BitVec.toNat hcount
    rw [BitVec.toNat_ofNat] at htoNat
    exact Nat.dvd_of_mod_eq_zero htoNat
  · intro h aes j _
    rw [Unnoticed, sum_map_eq_zero_of_counts h, sum_map_eq_zero_of_counts h]

end Columns

/-- For fewer than `2 ^ 32` offsets: the pads take fewer than `2 ^ 31` bytes. -/
theorem padsCancel_iff {w : Nat} (hlength : offsets.length < 2 ^ 32) :
    PadsCancel offsets w ↔ 16 * (offsets.length * w) < 2 ^ 31 := by
  constructor
  · rintro ⟨n, hn, hcounts⟩
    by_contra hlarge
    have hlt := encryptedBlocks_lt (Nat.le_of_not_lt hlarge) hn
    have hpos : 0 < offsets.length * w := Nat.zero_lt_of_lt hlt
    have hw : 0 < w := Nat.pos_of_mul_pos_left hpos
    have hl : 0 < offsets.length := Nat.pos_of_mul_pos_right hpos
    -- the last pad is not encrypted, and its offset is not there often enough
    have hlast : n ≤ (offsets.length - 1) * w + (w - 1) := by
      have hsplit : offsets.length * w = (offsets.length - 1) * w + w := by
        rw [← Nat.succ_mul, Nat.succ_eq_add_one, Nat.sub_add_cancel hl]
      omega
    have hmem : offsets.getD (offsets.length - 1) 0 ∈ unencrypted offsets w n (w - 1) := by
      refine List.mem_map_of_mem (List.mem_filter.mpr ⟨List.mem_range.mpr (Nat.sub_lt hl (by decide)), ?_⟩)
      simpa using hlast
    have hfew : (unencrypted offsets w n (w - 1)).count (offsets.getD (offsets.length - 1) 0) < 2 ^ 32 := by
      refine (List.count_le_length.trans ?_).trans_lt hlength
      rw [unencrypted, List.length_map]
      exact (List.length_filter_le ..).trans List.length_range.le
    exact absurd (Nat.le_of_dvd (List.count_pos_iff.mpr hmem) (hcounts (w - 1) (Nat.sub_lt hw (by decide)) _))
      (Nat.not_le.mpr hfew)
  · intro hsmall
    refine ⟨offsets.length * w, encryptedBlocks_of_lt hsmall, fun q hq a => ?_⟩
    have hnone : unencrypted offsets w (offsets.length * w) q = [] := by
      rw [unencrypted, List.map_eq_nil_iff, List.filter_eq_nil_iff]
      intro k hk
      simpa using row_add_lt (List.mem_range.mp hk) hq
    rw [hnone, List.count_nil]
    exact Nat.dvd_zero _

/-- A vector, by its positions. -/
theorem mapIdx_eq_map_range (f : Nat → BitVec 32 → BitVec 32) (init : List (BitVec 32)) :
    init.mapIdx f = (List.range init.length).map fun e => f e (init.getD e 0) := by
  refine List.ext_getElem (by simp) fun e he he' => ?_
  rw [List.length_mapIdx] at he
  rw [List.getElem_mapIdx, List.getElem_map, List.getElem_range, List.getD_eq_getElem _ _ he]

/-- A buffer whose length is not negative is encrypted. -/
theorem exists_generateOtpVec {w n : Nat} (h : encryptedBlocks (offsets.length * w) = some n) :
    ∃ buffer, Secure.generateOtpVec g.aes 0x00 g.version offsets w = some buffer := by
  rw [Secure.generateOtpVec, aesEncrypt, length_flatMap_range, h]
  exact ⟨_, rfl⟩

/-- The vectorised sums are right for a cipher if and only if each element is. -/
theorem offsetTransformReduceVec_eq_padded_iff (hinit : init.length % 4 = 0)
    (hfit : RowsFit offsets.length init.length) :
    offsetTransformReduceVec g offsets init = .ok (padded g offsets init) ↔
      ∃ n, encryptedBlocks (offsets.length * (init.length / 4)) = some n ∧ ∀ q < init.length / 4, ∀ j < 4,
        Unnoticed g offsets (init.length / 4) n q j := by
  rw [offsetTransformReduceVec_eq_words hinit, if_pos hfit, padded, mapIdx_eq_map_range]
  cases hwords : g.offsetTransformReduceVec offsets init.length fun e => init.getD e 0 with
  | error fault =>
      refine iff_of_false (by simp [Except.map]) ?_
      rintro ⟨n, hn, -⟩
      obtain ⟨buffer, hbuffer⟩ := exists_generateOtpVec (g := g) hn
      rw [EncryptionEngine.offsetTransformReduceVec, hbuffer] at hwords
      cases hwords
  | ok out =>
      obtain ⟨n, hn, hout⟩ := g.offsetTransformReduceVec_eq hinit hwords
      have helement : ∀ e < init.length,
          (out e = init.getD e 0 + (offsets.map fun offset => g.padWord offset e).sum ↔
            Unnoticed g offsets (init.length / 4) n (e / 4) (e % 4)) := by
        intro e he
        rw [hout e he, add_right_inj]
        exact sum_padBlock_eq_iff (e % 4)
      simp only [hn, Option.some.injEq, exists_eq_left']
      show Except.ok _ = Except.ok _ ↔ _
      rw [Except.ok.injEq, List.map_inj_left]
      constructor
      · intro h q hq j hj
        have he : 4 * q + j < init.length := by omega
        have hright := (helement _ he).mp (h _ (List.mem_range.mpr he))
        rwa [Nat.mul_add_div (by decide), Nat.div_eq_of_lt hj, Nat.add_zero, Nat.mul_add_mod, Nat.mod_eq_of_lt hj]
          at hright
      · intro h e he
        rw [List.mem_range] at he
        exact (helement e he).mpr (h (e / 4) (by omega) (e % 4) (Nat.mod_lt _ (by decide)))

/-- The vectorised sums are right for every cipher. -/
theorem offsetTransformReduceVec_right_iff (version : BitVec 32) (offsets : List (BitVec 64))
    {init : List (BitVec 32)} (hinit : init.length % 4 = 0) :
    (∀ aes, offsetTransformReduceVec ⟨version, aes⟩ offsets init = .ok (padded ⟨version, aes⟩ offsets init)) ↔
      RowsFit offsets.length init.length ∧ PadsCancel offsets (init.length / 4) := by
  by_cases hfit : RowsFit offsets.length init.length
  · simp only [offsetTransformReduceVec_eq_padded_iff hinit hfit, hfit, true_and]
    unfold PadsCancel
    cases hn : encryptedBlocks (offsets.length * (init.length / 4)) with
    | none => simp
    | some n =>
        simp only [Option.some.injEq, exists_eq_left']
        constructor
        · intro h q hq
          exact (column_iff version).mp fun aes j hj => h aes q hq j hj
        · intro h aes q hq j hj
          exact (column_iff version).mpr (h q hq) aes j hj
  · refine iff_of_false (fun h => ?_) fun h => hfit h.1
    have hvec := h fun b => b
    rw [offsetTransformReduceVec_eq_words hinit, if_neg hfit] at hvec
    cases hvec

/-- **When the two reductions agree.** -/
theorem pad_reductions_iff (version : BitVec 32) (offsets : List (BitVec 64)) (init : List (BitVec 32))
    (hinit : init.length % 4 = 0) :
    (∀ aes, offsetTransformReduce ⟨version, aes⟩ offsets init = .ok (padded ⟨version, aes⟩ offsets init) ∧
      offsetTransformReduceVec ⟨version, aes⟩ offsets init = .ok (padded ⟨version, aes⟩ offsets init)) ↔
      (∀ x ∈ init, x = 0) ∧ RowsFit offsets.length init.length ∧ PadsCancel offsets (init.length / 4) := by
  rw [forall_and, offsetTransformReduceVec_right_iff version offsets hinit]
  refine and_congr_left fun _ => ?_
  simp only [offsetTransformReduce_eq hinit, padded, Except.ok.injEq, mapIdx_eq_map_range, List.map_inj_left,
    List.mem_range]
  constructor
  · intro h x hx
    obtain ⟨e, he, rfl⟩ := List.mem_iff_getElem.mp hx
    have htwice := h (fun b => b) e he
    rwa [add_eq_left, List.getD_eq_getElem _ _ he] at htwice
  · intro h aes e he
    rw [List.getD_eq_getElem _ _ he, h _ (List.getElem_mem he), add_zero]

/-- A row of eight zeros with two offsets. -/
theorem pad_reductions_two_offsets :
    offsetTransformReduce ⟨1, fun b => b⟩ [0, 64] (List.replicate 8 0)
        = .ok (padded ⟨1, fun b => b⟩ [0, 64] (List.replicate 8 0)) ∧
      offsetTransformReduceVec ⟨1, fun b => b⟩ [0, 64] (List.replicate 8 0)
        = .ok (padded ⟨1, fun b => b⟩ [0, 64] (List.replicate 8 0)) :=
  (pad_reductions_iff 1 [0, 64] (List.replicate 8 0) (by decide)).mpr
    ⟨fun _ => List.eq_of_mem_replicate, by decide, (padsCancel_iff (by decide)).mpr (by decide)⟩ fun b => b

/-- Without any offset, the first reduction doubles the vector and the second one leaves it as it is. -/
theorem pad_reductions_differ :
    offsetTransformReduce ⟨0, fun b => b⟩ [] [1, 0, 0, 0] = .ok [2, 0, 0, 0] ∧
      offsetTransformReduceVec ⟨0, fun b => b⟩ [] [1, 0, 0, 0] = .ok [1, 0, 0, 0] ∧
      padded ⟨0, fun b => b⟩ [] [1, 0, 0, 0] = [1, 0, 0, 0] := by
  have hlength : [(1 : BitVec 32), 0, 0, 0].length % 4 = 0 := by decide
  have hvec := (offsetTransformReduceVec_right_iff 0 [] hlength).mpr
    ⟨by decide, (padsCancel_iff (by decide)).mpr (by decide)⟩
  have hpadded : padded ⟨0, fun b => b⟩ [] [1, 0, 0, 0] = [1, 0, 0, 0] := by decide
  refine ⟨?_, (hvec fun b => b).trans (congrArg _ hpadded), hpadded⟩
  rw [offsetTransformReduce_eq hlength]
  exact congrArg _ (by decide)

end PadReduction

end Pnm.Secure

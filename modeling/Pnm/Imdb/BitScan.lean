import Pnm.Imdb.Scan

/-!
# `Imdb.BitScan` — scans with a bit vector as result

Each block stores its mask as one byte, so that bit `i` of the result is the test of row `i`
(`scanBits_spec`). The scan is right exactly if the test of a lane and the scalar test agree on all rows
(`bitScanCorrect_iff`); the results for lists and for ranges say when that is, in terms of the list's limit and of
the range's bounds.
-/

namespace Pnm.Imdb

open Pnm.Lib

/-- Write one byte of a storage of 32-bit words. -/
def setByte (d : Words 32) (a : Nat) (x : BitVec 8) : Words 32 :=
  let shift := 8 * (a % 4)
  Function.update d (a / 4) ((d (a / 4) &&& ~~~ (0xFF#32 <<< shift)) ||| x.setWidth 32 <<< shift)

/-- `store` into a bit vector. -/
def storeBits (_base : Nat) (mask : BitVec 8) (result : BitVectorView 32) (outIndex : Nat) :
    Option (Nat × BitVectorView 32) :=
  if outIndex < 4 * result.storageWords then some (1, { result with data := setByte result.data outIndex mask })
  else none

/-- `scan` with a bit vector as result. -/
def scanBits (column : BitCompressed 32) (predicate : ScanPredicate) (result : BitVectorView 32) :
    Option (Nat × BitVectorView 32) :=
  scanAvx2Impl column predicate storeBits result

/-- Writing byte `a` changes the positions from `8 * a` to `8 * a + 7` and no others. -/
theorem bitAt_setByte (d : Words 32) (a : Nat) (x : BitVec 8) (p : Nat) :
    bitAt (setByte d a x) p = if p / 8 = a then x.getLsbD (p % 8) else bitAt d p := by
  have hones : ∀ k < 32, (0xFF#32).getLsbD k = decide (k < 8) := by decide
  unfold bitAt setByte
  simp only [Function.update_apply]
  by_cases hword : p / 32 = a / 4
  · rw [if_pos hword, BitVec.getLsbD_or, BitVec.getLsbD_and, BitVec.getLsbD_not, BitVec.getLsbD_shiftLeft,
      BitVec.getLsbD_shiftLeft, BitVec.getLsbD_setWidth, hones _ (by omega), hword]
    by_cases hbyte : p / 8 = a
    · -- the byte is replaced
      rw [if_pos hbyte, show p % 32 - 8 * (a % 4) = p % 8 by omega]
      simp [show ¬ p % 32 < 8 * (a % 4) by omega, show p % 8 < 8 by omega, show p % 32 < 32 by omega,
        show p % 8 < 32 by omega]
    · -- another byte of the same word is kept
      rw [if_neg hbyte]
      by_cases hbelow : p % 32 < 8 * (a % 4)
      · simp [hbelow, show p % 32 < 32 by omega]
      · have hhigh : x.getLsbD (p % 32 - 8 * (a % 4)) = false := BitVec.getLsbD_of_ge _ _ (by omega)
        simp [hbelow, hhigh, show ¬ p % 32 - 8 * (a % 4) < 8 by omega, show p % 32 < 32 by omega]
  · rw [if_neg hword, if_neg (by omega)]

/-- **The bits a scan leaves**: it returns, and bit `i` of the result is the lane test of row `i`. -/
theorem scanBits_spec {column : BitCompressed 32} (hw : column.valueBits ≤ 18) (predicate : ScanPredicate)
    {result : BitVectorView 32} (hr : result.size = column.size) :
    ∃ count out, scanBits column predicate result = some (count, out) ∧ out.size = column.size ∧
      ∀ i < column.size, bitAt out.data i = predicate.accepts (column.getValue i) := by
  have hroom := le_alignedStorageSize (show 4 ∣ 64 by decide) column.size
  obtain ⟨count, out, hscan, -, hsize, hbits⟩ := scanAvx2Impl_total column predicate storeBits
    (fun b count r => count = b ∧ r.size = column.size ∧
      ∀ i < 8 * b, bitAt r.data i = predicate.accepts (column.getValue i))
    result ⟨rfl, hr, fun i hi => by omega⟩ (by
      rintro b hb count r ⟨rfl, hsize, hbits⟩
      obtain ⟨mask, hblock, hmask⟩ := blockMask_eq predicate hw hb
      refine ⟨mask, 1, { r with data := setByte r.data count mask }, hblock, ?_, rfl, hsize, ?_⟩
      · rw [storeBits, if_pos]
        unfold BitVectorView.storageWords bitVectorStorageSize
        rw [hsize]
        omega
      · intro i hi
        show bitAt (setByte r.data count mask) i = _
        rw [bitAt_setByte]
        split
        · rename_i hlast
          rw [hmask _ (Nat.mod_lt _ (by decide)), show 8 * count + i % 8 = i by omega]
        · exact hbits i (by omega))
  exact ⟨count, out, hscan, hsize, fun i hi => hbits i (by omega)⟩

/-! ## Right results -/

/-- The scan returns, with every access inside the storages, and the bit of every row is what the scalar test says. -/
def BitScanCorrect (column : BitCompressed 32) (predicate : ScanPredicate) (result : BitVectorView 32) : Prop :=
  ∃ count out, scanBits column predicate result = some (count, out) ∧
    ∀ i < column.size, out.contains i = predicate.holds (column.getValue i)

theorem bitScanCorrect_iff {column : BitCompressed 32} (hw : column.valueBits ≤ 18) (predicate : ScanPredicate)
    {result : BitVectorView 32} (hr : result.size = column.size) :
    BitScanCorrect column predicate result ↔
      ∀ i < column.size, predicate.accepts (column.getValue i) = predicate.holds (column.getValue i) := by
  obtain ⟨count, out, hscan, hsize, hbits⟩ := scanBits_spec hw predicate hr
  have hcontains : ∀ i < column.size, out.contains i = predicate.accepts (column.getValue i) := by
    intro i hi
    rw [BitVectorView.contains_eq (by decide), hsize, decide_eq_true hi, Bool.true_and, hbits i hi]
  constructor
  · rintro ⟨count', out', hscan', hcorrect⟩ i hi
    obtain ⟨-, rfl⟩ := Prod.mk.inj (Option.some.inj (hscan.symm.trans hscan'))
    rw [← hcontains i hi, hcorrect i hi]
  · intro hagree
    exact ⟨count, out, hscan, fun i hi => by rw [hcontains i hi, hagree i hi]⟩

/-! ## The scalar scans -/

/-- The body of the scalar scans into a bit vector. -/
def bvBody (column : BitCompressed 32) (predicate : ScanPredicate) (i : BitVec 32) (result : BitVectorView 32) :
    BitVectorView 32 :=
  if predicate.holds (column.getValue i.toNat) then result.insert i.toNat else result

/-- The scalar scans into a bit vector. -/
def cpuToBv (column : BitCompressed 32) (predicate : ScanPredicate) (fuel : Nat) : Option (BitVectorView 32) :=
  cpuLoop column.size (bvBody column predicate) fuel 0 (BitVectorView.ofValues 32 column.size [])

/-- `in_range_to_bv`. -/
def inRangeToBv (column : BitCompressed 32) (start last : BitVec 32) (fuel : Nat) : Option (BitVectorView 32) :=
  cpuToBv column (.inRange start last) fuel

/-- `in_list_to_bv`. -/
def inListToBv (column : BitCompressed 32) (predictor : BitVectorView 32) (fuel : Nat) : Option (BitVectorView 32) :=
  cpuToBv column (.inList predictor) fuel

/-- After the first `n` rows the result holds their tests. -/
theorem foldl_bvBody (column : BitCompressed 32) (predicate : ScanPredicate) {n : Nat} (hn : n < 2 ^ 32) :
    ((List.range n).foldl (fun r i => bvBody column predicate (BitVec.ofNat 32 i) r)
      (BitVectorView.ofValues 32 column.size [])).size = column.size ∧
    ∀ p, bitAt ((List.range n).foldl (fun r i => bvBody column predicate (BitVec.ofNat 32 i) r)
      (BitVectorView.ofValues 32 column.size [])).data p
      = (decide (p < n) && predicate.holds (column.getValue p)) := by
  induction n with
  | zero => exact ⟨rfl, fun p => by simp [BitVectorView.ofValues, bitAt]⟩
  | succ n ih =>
      obtain ⟨hsize, hbits⟩ := ih (by omega)
      rw [List.range_succ, List.foldl_append, List.foldl_cons, List.foldl_nil, bvBody, BitVec.toNat_ofNat,
        Nat.mod_eq_of_lt (by omega)]
      cases hrow : predicate.holds (column.getValue n) with
      | true =>
          refine ⟨hsize, fun p => ?_⟩
          rw [if_pos rfl, BitVectorView.bitAt_insert (by decide), hbits]
          by_cases hp : p = n
          · simp [hp, hrow]
          · simp [hp, show p < n + 1 ↔ p < n by omega]
      | false =>
          refine ⟨hsize, fun p => ?_⟩
          rw [if_neg (by decide), hbits]
          by_cases hp : p = n
          · simp [hp, hrow]
          · simp [show p < n + 1 ↔ p < n by omega]

/-- **The scalar scan is right** for columns whose rows its index type can count. -/
theorem cpuToBv_spec {column : BitCompressed 32} (hsize : column.size < 2 ^ 32) (predicate : ScanPredicate)
    {fuel : Nat} (hfuel : column.size < fuel) :
    ∃ out, cpuToBv column predicate fuel = some out ∧
      ∀ i < column.size, out.contains i = predicate.holds (column.getValue i) := by
  obtain ⟨hout, hbits⟩ := foldl_bvBody column predicate hsize
  refine ⟨_, cpuLoop_eq hsize _ hfuel _, fun i hi => ?_⟩
  rw [BitVectorView.contains_eq (by decide), hout, hbits, decide_eq_true hi, Bool.true_and, Bool.true_and]

/-! ## Lists -/

/-- The bound of the lookup, as a number: the count of the list's words, wrapped to 32 bits. -/
theorem toInt_maxIndex {size : Nat} (hpos : 0 < size) (hsize : size < 2 ^ 64) :
    (maxIndex size).toInt = Int.bmod ((size - 1) / 32 + 1 : Nat) (2 ^ 32) := by
  have hvalue : ((BitVec.ofNat 64 size - 1#64) >>> 5) + 1#64 = BitVec.ofNat 64 ((size - 1) / 32 + 1) := by
    apply BitVec.eq_of_toNat_eq
    rw [BitVec.toNat_add, BitVec.toNat_ushiftRight, BitVec.toNat_sub, BitVec.toNat_ofNat, BitVec.toNat_ofNat,
      BitVec.toNat_ofNat, Nat.shiftRight_eq_div_pow]
    omega
  rw [maxIndex, hvalue, BitVec.toInt_eq_toNat_bmod, BitVec.toNat_setWidth, BitVec.toNat_ofNat,
    Nat.mod_eq_of_lt (show (size - 1) / 32 + 1 < 2 ^ 64 by omega)]
  rw [Int.natCast_mod, Int.emod_bmod]

/-- **The scan for a list**: it is right exactly if the word number of every value found in the list is below the
    number of words of the list, the latter wrapped to a signed 32-bit integer. The scalar scan is always right. -/
theorem inList_bits_correct_iff {column : BitCompressed 32} (hw : 1 ≤ column.valueBits ∧ column.valueBits ≤ 18)
    {list : BitVectorView 32} (hlist : list.Built) (hlimit : list.size < 2 ^ 64) {result : BitVectorView 32}
    (hr : result.size = column.size) :
    (BitScanCorrect column (.inList list) result ↔
      ∀ i < column.size, list.contains (column.getValue i).toNat →
        (((column.getValue i).toNat / 32 : Nat) : Int) < Int.bmod ((list.size - 1) / 32 + 1 : Nat) (2 ^ 32)) ∧
    (column.size < 2 ^ 32 → ∀ fuel > column.size, ∃ out, inListToBv column list fuel = some out ∧
      ∀ i < column.size, out.contains i = list.contains (column.getValue i).toNat) := by
  refine ⟨?_, fun hsize fuel hfuel => cpuToBv_spec hsize (.inList list) hfuel⟩
  rw [bitScanCorrect_iff hw.2 _ hr]
  refine forall₂_congr fun i _ => ?_
  rw [ScanPredicate.accepts_inList hlist, Bool.and_eq_left_iff_imp, decide_eq_true_iff]
  refine imp_congr_right fun hfound => ?_
  -- a list with a value in it has a limit above zero
  have hpos : 0 < list.size := by
    have hin : list.contains (column.getValue i).toNat = true := hfound
    rw [BitVectorView.contains_eq (by decide), Bool.and_eq_true, decide_eq_true_iff] at hin
    omega
  rw [ScanPredicate.Reaches, toInt_maxIndex hpos hlimit]

/-- Nine rows of three bits each. -/
def sampleColumn : BitCompressed 32 := BitCompressed.ofValues 3 [5, 1, 7, 5, 0, 2, 5, 3, 6]

theorem inList_bits_correct_iff_sample :
    BitScanCorrect sampleColumn (.inList (BitVectorView.ofValues 32 6 [5, 1])) (BitVectorView.ofValues 32 9 []) :=
  (inList_bits_correct_iff (by decide) ⟨6, [5, 1], by decide, rfl⟩ (by decide) rfl).1.mpr (by decide +kernel)

/-- A list with limit `2 ^ 36 - 31` has `2 ^ 31` words, which is a negative 32-bit integer: nothing is looked up,
    and the row with value `0` is not found. -/
theorem inList_bits_huge_list :
    ¬ BitScanCorrect (BitCompressed.ofValues 1 [0]) (.inList (BitVectorView.ofValues 32 (2 ^ 36 - 31) [0, 2 ^ 36 - 32]))
      (BitVectorView.ofValues 32 1 []) := by
  rw [bitScanCorrect_iff (by decide) _ rfl]
  intro hagree
  have hrow := hagree 0 (by decide)
  have hvalue : (BitCompressed.ofValues 1 [(0 : BitVec 32)]).getValue 0 = 0 := by decide +kernel
  have hmax : maxIndex (2 ^ 36 - 31) = BitVec.intMin 32 := by decide +kernel
  rw [hvalue, ScanPredicate.accepts, ScanPredicate.holds, BitVectorView.size_ofValues, hmax,
    BitVectorView.contains_eq (by decide), BitVectorView.size_ofValues, BitVectorView.bitAt_ofValues (by decide)]
      at hrow
  revert hrow
  decide +kernel

/-! ## Ranges -/

/-- A number from `2 ^ 31` on is negative as a signed one. -/
theorem slt_of_negative {x y : BitVec 32} (hx : 2 ^ 31 ≤ x.toNat) (hy : y.toNat < 2 ^ 31) :
    x.slt y = true ∧ y.slt x = false := by
  have hxlt := x.isLt
  have hxint := BitVec.toInt_eq_toNat_cond x
  have hyint := BitVec.toInt_eq_toNat_cond y
  rw [BitVec.slt_eq_decide, BitVec.slt_eq_decide, decide_eq_true_iff, decide_eq_false_iff_not]
  split at hxint <;> split at hyint <;> omega

/-- **The lane test and the scalar test of a range**, for a value below `2 ^ 18`. -/
theorem accepts_inRange_iff (start last : BitVec 32) {v : BitVec 32} (hv : v.toNat < 2 ^ 18) :
    (ScanPredicate.inRange start last).accepts v = (ScanPredicate.inRange start last).holds v ↔
      (start.toNat < 2 ^ 31 ↔ last.toNat < 2 ^ 31) ∨
      (2 ^ 31 ≤ start.toNat ∧ last.toNat < 2 ^ 31 ∧ last.toNat < v.toNat) ∨
      (start.toNat < 2 ^ 31 ∧ 2 ^ 31 ≤ last.toNat ∧ v.toNat < start.toNat) := by
  have hv' : v.toNat < 2 ^ 31 := by omega
  have hholds : (ScanPredicate.inRange start last).holds v
      = decide (start.toNat ≤ v.toNat ∧ v.toNat ≤ last.toNat) := by
    rw [ScanPredicate.holds, Bool.decide_and]
    rfl
  by_cases hstart : start.toNat < 2 ^ 31
  · by_cases hlast : last.toNat < 2 ^ 31
    · simp only [ScanPredicate.accepts_inRange hv' hstart hlast, hstart, hlast, true_or]
    · -- no row passes a negative upper bound
      rw [ScanPredicate.accepts, (slt_of_negative (by omega) hv').1, hholds, Bool.or_true, Bool.not_true,
        eq_comm, decide_eq_false_iff_not]
      omega
  · by_cases hlast : last.toNat < 2 ^ 31
    · -- every row passes a negative lower bound
      rw [ScanPredicate.accepts, (slt_of_negative (by omega) hv').2, ScanPredicate.slt_eq_of_lt hlast hv', hholds,
        Bool.false_or, ← decide_not, decide_eq_decide]
      omega
    · rw [ScanPredicate.accepts, (slt_of_negative (by omega) hv').1, hholds, Bool.or_true, Bool.not_true,
        eq_comm, decide_eq_false_iff_not]
      omega

/-- **The scan for a range**: it is right exactly if both bounds are below `2 ^ 31` or both are not, or no row is on
    the side where the signed and the unsigned order part. The scalar scan is always right. -/
theorem inRange_bits_correct_iff {column : BitCompressed 32} (hw : 1 ≤ column.valueBits ∧ column.valueBits ≤ 18)
    (start last : BitVec 32) {result : BitVectorView 32} (hr : result.size = column.size) :
    (BitScanCorrect column (.inRange start last) result ↔
      (start.toNat < 2 ^ 31 ↔ last.toNat < 2 ^ 31) ∨
      (2 ^ 31 ≤ start.toNat ∧ last.toNat < 2 ^ 31 ∧ ∀ i < column.size, last.toNat < (column.getValue i).toNat) ∨
      (start.toNat < 2 ^ 31 ∧ 2 ^ 31 ≤ last.toNat ∧ ∀ i < column.size, (column.getValue i).toNat < start.toNat)) ∧
    (column.size < 2 ^ 32 → ∀ fuel > column.size, ∃ out, inRangeToBv column start last fuel = some out ∧
      ∀ i < column.size, out.contains i
        = decide (start.toNat ≤ (column.getValue i).toNat ∧ (column.getValue i).toNat ≤ last.toNat)) := by
  constructor
  · rw [bitScanCorrect_iff hw.2 _ hr]
    have hrow : ∀ i, _ := fun i => accepts_inRange_iff start last (BitCompressed.getValue_lt hw.2 i)
    constructor
    · intro hagree
      have hall := fun i hi => (hrow i).mp (hagree i hi)
      by_cases hstart : start.toNat < 2 ^ 31 <;> by_cases hlast : last.toNat < 2 ^ 31
      · exact .inl ⟨fun _ => hlast, fun _ => hstart⟩
      · exact .inr (.inr ⟨hstart, by omega, fun i hi => by have := hall i hi; omega⟩)
      · exact .inr (.inl ⟨by omega, hlast, fun i hi => by have := hall i hi; omega⟩)
      · exact .inl ⟨fun h => absurd h hstart, fun h => absurd h hlast⟩
    · rintro (hsame | ⟨hstart, hlast, hrows⟩ | ⟨hstart, hlast, hrows⟩) i hi
      · exact (hrow i).mpr (.inl hsame)
      · exact (hrow i).mpr (.inr (.inl ⟨hstart, hlast, hrows i hi⟩))
      · exact (hrow i).mpr (.inr (.inr ⟨hstart, hlast, hrows i hi⟩))
  · intro hsize fuel hfuel
    obtain ⟨out, hrun, hout⟩ := cpuToBv_spec hsize (.inRange start last) hfuel
    refine ⟨out, hrun, fun i hi => ?_⟩
    rw [hout i hi, ScanPredicate.holds, Bool.decide_and]
    rfl

theorem inRange_bits_correct_iff_sample :
    BitScanCorrect sampleColumn (.inRange 2 6) (BitVectorView.ofValues 32 9 []) :=
  (inRange_bits_correct_iff (by decide) 2 6 rfl).1.mpr (.inl (by decide))

/-- The range from `0` to `2 ^ 32 - 1` holds every row, and the scan finds none. -/
theorem inRange_bits_open_end :
    ¬ BitScanCorrect (BitCompressed.ofValues 1 [1]) (.inRange 0 (BitVec.allOnes 32))
      (BitVectorView.ofValues 32 1 []) := by
  rw [bitScanCorrect_iff (by decide) _ rfl]
  intro hagree
  have hrow := hagree 0 (by decide)
  revert hrow
  decide +kernel

end Pnm.Imdb

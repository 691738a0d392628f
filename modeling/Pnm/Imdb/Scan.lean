import Pnm.Imdb.Avx2

/-!
# `Imdb.Scan` — predicates and the scan loop

The model of `imdb/software_scan/avx2/predicate.h` and of `scan_avx2_impl` in `scan.cpp`. Accesses are checked
against the storage of the view they go through: a load, a gather or a store outside gives `none`.

The predicates are computed with the compares the code uses, which are signed. `ScanPredicate.accepts` says what
they test in one lane, `ScanPredicate.holds` what the scalar scan tests; `Reaches` is the difference for lists.
The loop is taken through once, in `scanLoop_reaches`; the results about both kinds of output come from it.
-/

namespace Pnm.Imdb

open Pnm.Lib

/-! ## Intrinsics -/

/-- A lane of a compare: all ones or all zeros. -/
def laneOf (b : Bool) : BitVec 32 := if b then BitVec.allOnes 32 else 0

/-- `_mm256_cmpgt_epi32` in one lane. -/
def cmpgtEpi32 (x y : BitVec 32) : BitVec 32 := laneOf (y.slt x)

/-- `_mm256_cmpeq_epi32` in one lane. -/
def cmpeqEpi32 (x y : BitVec 32) : BitVec 32 := laneOf (x == y)

/-- `_mm256_sllv_epi32` in one lane. -/
def sllvEpi32 (x : BitVec 32) (count : BitVec 32) : BitVec 32 := if count.toNat < 32 then x <<< count.toNat else 0

/-- `_mm256_movemask_ps`. -/
def movemask (r : Lanes) : BitVec 8 :=
  (BitVec.ofBoolListLE ((List.range 8).map fun j => (r j).msb)).cast (by simp)

theorem getLsbD_movemask (r : Lanes) {j : Nat} (hj : j < 8) : (movemask r).getLsbD j = (r j).msb := by
  rw [movemask, BitVec.getLsbD_cast, BitVec.getLsbD_ofBoolListLE]
  simp [List.getD_eq_getElem?_getD, hj]

@[simp] theorem msb_laneOf (b : Bool) : (laneOf b).msb = b := by
  cases b <;> decide

/-! ## Storages -/

/-- The bytes behind a view of a column, as the container and `compressed_view_from_raw` set its end. -/
def BitCompressed.storageBytes (c : BitCompressed 32) : Nat := 4 * compressedVectorStorageSize 4 c.valueBits c.size

/-- The words behind a view of a bit vector, as the container and `bit_view_from_raw` set its end. -/
def BitVectorView.storageWords (b : BitVectorView 32) : Nat := bitVectorStorageSize 4 b.size

/-- `load_with_decompression` through the view: 32 bytes at `base`. -/
def BitCompressed.load (c : BitCompressed 32) (base : Nat) : Option Lanes :=
  if base + 32 ≤ c.storageBytes then some (loadWithDecompression c.valueBits (bytesOf c.data) base) else none

/-- The loads of all blocks stay inside the storage. -/
theorem BitCompressed.load_eq (c : BitCompressed 32) {b : Nat} (hb : 8 * b < c.size) :
    c.load (b * c.valueBits) = some (loadWithDecompression c.valueBits (bytesOf c.data) (b * c.valueBits)) := by
  have hroom := le_alignedStorageSize (show 4 ∣ 64 by decide) (c.valueBits * c.size + 512)
  have hbits : 8 * (b * c.valueBits) ≤ c.valueBits * c.size := by
    calc 8 * (b * c.valueBits) = c.valueBits * (8 * b) := by ring
      _ ≤ c.valueBits * c.size := Nat.mul_le_mul_left _ (by omega)
  rw [BitCompressed.load, if_pos]
  unfold BitCompressed.storageBytes compressedVectorStorageSize
  omega

theorem BitCompressed.getValue_lt {c : BitCompressed 32} (hw : c.valueBits ≤ 18) (i : Nat) :
    (c.getValue i).toNat < 2 ^ 18 := by
  refine Nat.lt_pow_two_of_testBit _ fun k hk => ?_
  have hbit := getLsbD_getValue (c := c) (by omega) i k
  rw [decide_eq_false (by omega), Bool.false_and] at hbit
  exact hbit

/-! ## Predicates -/

/-- The two kinds of predicate a scan is given. -/
inductive ScanPredicate where
  | inRange (start last : BitVec 32)
  | inList (list : BitVectorView 32)

/-- `max_index` of `AVXInList`: the number of words of the list, made a 32-bit integer. -/
def maxIndex (size : Nat) : BitVec 32 := (((BitVec.ofNat 64 size - 1#64) >>> 5) + 1#64).setWidth 32

/-- `_mm256_mask_i32gather_epi32` in one lane, from the words of a list. -/
def gatherLane (list : BitVectorView 32) (index mask : BitVec 32) : Option (BitVec 32) :=
  if mask.msb then
    if 0 ≤ index.toInt ∧ index.toInt < list.storageWords then some (list.data index.toInt.toNat) else none
  else some 0

/-- Eight lanes, if all of them can be computed. -/
def allLanes (f : Nat → Option (BitVec 32)) : Option Lanes :=
  if (List.range 8).all (fun j => (f j).isSome) then some fun j => (f j).getD 0 else none

namespace ScanPredicate

/-- `apply_predicate`. -/
def apply (data : Lanes) : ScanPredicate → Option (BitVec 8)
  | inRange start last =>
      let ge : Lanes := fun j => cmpgtEpi32 start (data j)
      let le : Lanes := fun j => cmpgtEpi32 (data j) last
      let outRange : Lanes := fun j => ge j ||| le j
      some (movemask outRange ^^^ 0xFF)
  | inList list => do
      let inValueShift : Lanes := fun j => data j &&& 0b11111
      let valueIndices : Lanes := fun j => srlvEpi32 (data j) 5
      let detectionMask : Lanes := fun j => sllvEpi32 1 (inValueShift j)
      let inRange : Lanes := fun j => cmpgtEpi32 (maxIndex list.size) (valueIndices j)
      let inListContainers ← allLanes fun j => gatherLane list (valueIndices j) (inRange j)
      some (movemask fun j => cmpeqEpi32 (inListContainers j &&& detectionMask j) (detectionMask j))

/-- What a lane tests. -/
def accepts (v : BitVec 32) : ScanPredicate → Bool
  | inRange start last => !(v.slt start || last.slt v)
  | inList list        => (srlvEpi32 v 5).slt (maxIndex list.size) && bitAt list.data v.toNat

/-- What the scalar scan tests. -/
def holds (v : BitVec 32) : ScanPredicate → Bool
  | inRange start last => start ≤ v && v ≤ last
  | inList list        => list.contains v.toNat

end ScanPredicate

/-- The word index of a value. -/
theorem toNat_srlv_five (v : BitVec 32) : (srlvEpi32 v 5).toNat = v.toNat / 32 := by
  rw [srlvEpi32, if_pos (by decide), BitVec.toNat_ushiftRight, Nat.shiftRight_eq_div_pow]

theorem toInt_srlv_five (v : BitVec 32) : (srlvEpi32 v 5).toInt = (v.toNat / 32 : Nat) := by
  have hv := v.isLt
  rw [BitVec.toInt_eq_toNat_of_lt (by rw [toNat_srlv_five]; omega), toNat_srlv_five]

/-- A word index below `max_index` is inside the list's storage, for every size. -/
theorem maxIndex_le_storageWords (list : BitVectorView 32) : (maxIndex list.size).toInt ≤ list.storageWords := by
  have hroom := le_alignedStorageSize (show 4 ∣ 64 by decide) list.size
  have hnat : (maxIndex list.size).toNat
      = ((2 ^ 64 - 1 + list.size % 2 ^ 64) % 2 ^ 64 / 32 + 1) % 2 ^ 64 % 2 ^ 32 := by
    rw [maxIndex, BitVec.toNat_setWidth, BitVec.toNat_add, BitVec.toNat_ushiftRight, BitVec.toNat_sub,
      BitVec.toNat_ofNat, Nat.shiftRight_eq_div_pow]
    rfl
  have hsmall : list.size % 2 ^ 64 ≤ list.size := Nat.mod_le _ _
  have hint := BitVec.toInt_eq_toNat_cond (maxIndex list.size)
  unfold BitVectorView.storageWords bitVectorStorageSize
  split at hint <;> omega

/-! ## What a lane tests -/

theorem allLanes_eq {f : Nat → Option (BitVec 32)} {r : Lanes} (h : ∀ j < 8, f j = some (r j)) :
    ∃ lanes, allLanes f = some lanes ∧ ∀ j < 8, lanes j = r j := by
  refine ⟨fun j => (f j).getD 0, ?_, fun j hj => congrArg (Option.getD · 0) (h j hj)⟩
  rw [allLanes, if_pos]
  simp only [List.all_eq_true, List.mem_range]
  exact fun j hj => by rw [h j hj, Option.isSome_some]

/-- A lane of the gather reads its word of the list, if it is asked to. -/
theorem gatherLane_eq (list : BitVectorView 32) (v : BitVec 32) :
    gatherLane list (srlvEpi32 v 5) (cmpgtEpi32 (maxIndex list.size) (srlvEpi32 v 5))
      = some (if (srlvEpi32 v 5).slt (maxIndex list.size) then list.data (v.toNat / 32) else 0) := by
  rw [gatherLane, cmpgtEpi32, msb_laneOf]
  split
  · rename_i hslt
    have hlt : (srlvEpi32 v 5).toInt < (maxIndex list.size).toInt := BitVec.slt_iff_toInt_lt.mp hslt
    have hwords := maxIndex_le_storageWords list
    rw [toInt_srlv_five] at hlt
    rw [toInt_srlv_five, if_pos ⟨by omega, by omega⟩, Int.toNat_natCast]
  · rfl

/-- `1 << (v & 31)` is the mask of the value's place in its word. -/
theorem detectionMask_eq (v : BitVec 32) : sllvEpi32 1 (v &&& 0b11111) = BitVectorView.bitMask 32 v.toNat := by
  have hand : (v &&& 0b11111#32).toNat = v.toNat % 32 := by
    rw [BitVec.toNat_and]
    exact Nat.and_two_pow_sub_one_eq_mod v.toNat 5
  show sllvEpi32 1 (v &&& 0b11111#32) = _
  rw [sllvEpi32, hand, if_pos (Nat.mod_lt _ (by decide)), BitVectorView.bitMask]
  rfl

/-- A word holds the whole mask exactly if it holds its bit. -/
theorem and_bitMask_beq (x : BitVec 32) (v : Nat) :
    ((x &&& BitVectorView.bitMask 32 v) == BitVectorView.bitMask 32 v) = x.getLsbD (v % 32) := by
  have hmask := BitVectorView.getLsbD_bitMask (s := 32) (by decide) v
  rw [Bool.eq_iff_iff, beq_iff_eq]
  constructor
  · intro h
    have hbit := congrArg (·.getLsbD (v % 32)) h
    simpa [BitVec.getLsbD_and, hmask] using hbit
  · intro h
    refine BitVec.eq_of_getLsbD_eq fun k _ => ?_
    rw [BitVec.getLsbD_and, hmask]
    by_cases hk : k = v % 32
    · simp [hk, h]
    · simp [hk]

/-- **Applying a predicate**: it never fails, and bit `j` of the mask says whether lane `j` is accepted. -/
theorem ScanPredicate.apply_eq (p : ScanPredicate) (data : Lanes) :
    ∃ mask, p.apply data = some mask ∧ ∀ j < 8, mask.getLsbD j = p.accepts (data j) := by
  cases p with
  | inRange start last =>
      refine ⟨_, rfl, fun j hj => ?_⟩
      have hones : ∀ j < 8, (0xFF : BitVec 8).getLsbD j = true := by decide
      rw [BitVec.getLsbD_xor, getLsbD_movemask _ hj, hones j hj, BitVec.msb_or, Bool.xor_true, accepts]
      simp only [cmpgtEpi32, msb_laneOf]
  | inList list =>
      obtain ⟨lanes, hgather, hlanes⟩ := allLanes_eq (fun j _ => gatherLane_eq list (data j))
      refine ⟨_, by simp only [apply, hgather]; rfl, fun j hj => ?_⟩
      rw [getLsbD_movemask _ hj, cmpeqEpi32, msb_laneOf, hlanes j hj, detectionMask_eq, and_bitMask_beq, accepts]
      split
      · rename_i hslt
        rw [hslt, Bool.true_and]
        rfl
      · rename_i hslt
        rw [Bool.eq_false_of_not_eq_true hslt, Bool.false_and]
        exact BitVec.getLsbD_zero

/-! ## The lane test and the scalar test -/

/-- A bit vector as its constructors and `insert` calls below the limit leave it. -/
def BitVectorView.Built (list : BitVectorView 32) : Prop :=
  ∃ limit listed, (∀ v ∈ listed, v < limit) ∧ list = BitVectorView.ofValues 32 limit listed

/-- In such a bit vector every set bit is a value below the limit. -/
theorem BitVectorView.Built.bitAt_eq {list : BitVectorView 32} (h : list.Built) (v : Nat) :
    bitAt list.data v = list.contains v := by
  obtain ⟨limit, listed, hlisted, rfl⟩ := h
  rw [contains_eq (by decide), bitAt_ofValues (by decide), size_ofValues, ← Bool.decide_and, decide_eq_decide]
  exact ⟨fun hv => ⟨hlisted v hv, hv⟩, fun hv => hv.2⟩

namespace ScanPredicate

/-- The lookup of a value is made: its word is below `max_index` as a signed number. -/
def Reaches (v : BitVec 32) : ScanPredicate → Prop
  | inRange _ _ => True
  | inList list => ((v.toNat / 32 : Nat) : Int) < (maxIndex list.size).toInt

instance (v : BitVec 32) (p : ScanPredicate) : Decidable (p.Reaches v) :=
  match p with
  | inRange _ _ => inferInstanceAs (Decidable True)
  | inList list => inferInstanceAs (Decidable (((v.toNat / 32 : Nat) : Int) < (maxIndex list.size).toInt))

/-- The predicates of a scan with bounds below `2 ^ 31`, or with a list that was built. -/
def Valid : ScanPredicate → Prop
  | inRange start last => start.toNat < 2 ^ 31 ∧ last.toNat < 2 ^ 31
  | inList list        => list.Built

theorem accepts_inList {list : BitVectorView 32} (h : list.Built) (v : BitVec 32) :
    (inList list).accepts v = ((inList list).holds v && decide ((inList list).Reaches v)) := by
  have hslt : (srlvEpi32 v 5).slt (maxIndex list.size) = decide ((inList list).Reaches v) := by
    rw [BitVec.slt_eq_decide, toInt_srlv_five]
    rfl
  rw [accepts, hslt, h.bitAt_eq, Bool.and_comm]
  rfl

/-- A signed comparison of numbers below `2 ^ 31` is the unsigned one. -/
theorem slt_eq_of_lt {x y : BitVec 32} (hx : x.toNat < 2 ^ 31) (hy : y.toNat < 2 ^ 31) :
    x.slt y = decide (x.toNat < y.toNat) := by
  rw [BitVec.slt_eq_decide, BitVec.toInt_eq_toNat_of_lt (by omega), BitVec.toInt_eq_toNat_of_lt (by omega),
    decide_eq_decide]
  omega

theorem accepts_inRange {start last v : BitVec 32} (hv : v.toNat < 2 ^ 31) (hstart : start.toNat < 2 ^ 31)
    (hlast : last.toNat < 2 ^ 31) : (inRange start last).accepts v = (inRange start last).holds v := by
  rw [accepts, holds, slt_eq_of_lt hv hstart, slt_eq_of_lt hlast hv, Bool.eq_iff_iff]
  simp [BitVec.le_def]

/-- **What a lane tests, for a valid predicate**: the scalar test, cut off where the lookup is not made. -/
theorem accepts_eq {p : ScanPredicate} (hp : p.Valid) {v : BitVec 32} (hv : v.toNat < 2 ^ 31) :
    p.accepts v = (p.holds v && decide (p.Reaches v)) := by
  cases p with
  | inRange start last =>
      rw [accepts_inRange hv hp.1 hp.2, decide_eq_true (show (inRange start last).Reaches v from trivial),
        Bool.and_true]
  | inList list => exact accepts_inList hp v

end ScanPredicate

/-! ## The loop -/

section Loop

variable {R : Type} (column : BitCompressed 32) (predicate : ScanPredicate)
  (store : Nat → BitVec 8 → R → Nat → Option (Nat × R))

/-- Load a block and apply the predicate to it: the mask handed to `store`. -/
def blockMask (base : Nat) : Option (BitVec 8) := do
  let data ← column.load base
  predicate.apply data

/-- The loop of `scan_avx2_impl`, from row `i` on. -/
def scanLoop (i base count : Nat) (result : R) : Option (Nat × R) :=
  if i < column.size then do
    let mask ← blockMask column predicate base
    let (stored, result) ← store i mask result count
    scanLoop (i + 8) (base + column.valueBits) (count + stored) result
  else some (count, result)
termination_by column.size - i

/-- `scan_avx2_impl`. -/
def scanAvx2Impl (result : R) : Option (Nat × R) := scanLoop column predicate store 0 0 0 result

variable {column predicate store}

variable (predicate) in
/-- **The mask of a block**: bit `j` says whether row `8 * b + j` is accepted. -/
theorem blockMask_eq (hw : column.valueBits ≤ 18) {b : Nat} (hb : 8 * b < column.size) :
    ∃ mask, blockMask column predicate (b * column.valueBits) = some mask ∧
      ∀ j < 8, mask.getLsbD j = predicate.accepts (column.getValue (8 * b + j)) := by
  obtain ⟨mask, happly, hmask⟩ := predicate.apply_eq
    (loadWithDecompression column.valueBits (bytesOf column.data) (b * column.valueBits))
  refine ⟨mask, ?_, fun j hj => ?_⟩
  · rw [blockMask, column.load_eq hb]
    exact happly
  · rw [hmask j hj, loadWithDecompression_eq hw b hj]

/-- One turn of the loop, at block `b`. -/
theorem scanLoop_block {b : Nat} (hb : 8 * b < column.size) {mask : BitVec 8}
    (hmask : blockMask column predicate (b * column.valueBits) = some mask) (count : Nat) (result : R) :
    scanLoop column predicate store (8 * b) (b * column.valueBits) count result
      = (store (8 * b) mask result count).bind fun out =>
          scanLoop column predicate store (8 * (b + 1)) ((b + 1) * column.valueBits) (count + out.1) out.2 := by
  rw [scanLoop, if_pos hb, hmask, Nat.succ_mul b]
  rfl

variable (column predicate store) in
/-- **The loop reaches block `m`** with what its stores maintain. -/
theorem scanLoop_reaches (Inv : Nat → Nat → R → Prop) (result : R) (h0 : Inv 0 0 result) (m : Nat)
    (hm : ∀ b < m, 8 * b < column.size)
    (hstep : ∀ b < m, ∀ count r, Inv b count r → ∃ mask stored r',
      blockMask column predicate (b * column.valueBits) = some mask ∧
        store (8 * b) mask r count = some (stored, r') ∧ Inv (b + 1) (count + stored) r') :
    ∃ count r, Inv m count r ∧ scanAvx2Impl column predicate store result
      = scanLoop column predicate store (8 * m) (m * column.valueBits) count r := by
  induction m with
  | zero => exact ⟨0, result, h0, by rw [Nat.zero_mul]; rfl⟩
  | succ m ih =>
      obtain ⟨count, r, hinv, hrun⟩ := ih (fun b hb => hm b (by omega)) (fun b hb => hstep b (by omega))
      obtain ⟨mask, stored, r', hmask, hstore, hnext⟩ := hstep m (by omega) count r hinv
      refine ⟨count + stored, r', hnext, ?_⟩
      rw [hrun, scanLoop_block (hm m (by omega)) hmask, hstore]
      rfl

variable (column predicate store) in
/-- **Rule for a scan that returns**: every store succeeds and keeps the invariant. -/
theorem scanAvx2Impl_total (Inv : Nat → Nat → R → Prop) (result : R) (h0 : Inv 0 0 result)
    (hstep : ∀ b, 8 * b < column.size → ∀ count r, Inv b count r → ∃ mask stored r',
      blockMask column predicate (b * column.valueBits) = some mask ∧
        store (8 * b) mask r count = some (stored, r') ∧ Inv (b + 1) (count + stored) r') :
    ∃ count out, scanAvx2Impl column predicate store result = some (count, out) ∧
      Inv ((column.size + 7) / 8) count out := by
  obtain ⟨count, out, hinv, hrun⟩ := scanLoop_reaches column predicate store Inv result h0 ((column.size + 7) / 8)
    (fun b hb => by omega)
    (fun b hb => hstep b (by omega))
  refine ⟨count, out, ?_, hinv⟩
  rw [hrun, scanLoop, if_neg (by omega)]

end Loop

/-! ## The scalar loop -/

/-- The loops of `cpu_scan.h`: the row index is a 32-bit integer and wraps. -/
def cpuLoop {R : Type} (size : Nat) (body : BitVec 32 → R → R) : Nat → BitVec 32 → R → Option R
  | 0, _, _             => none
  | fuel + 1, i, result => if i.toNat < size then cpuLoop size body fuel (i + 1) (body i result) else some result

/-- **The scalar loop ends for columns of fewer than `2 ^ 32` rows**, and has taken all rows in order. -/
theorem cpuLoop_eq {R : Type} {size : Nat} (hsize : size < 2 ^ 32) (body : BitVec 32 → R → R) {fuel : Nat}
    (hfuel : size < fuel) (result : R) :
    cpuLoop size body fuel 0 result
      = some ((List.range size).foldl (fun r i => body (BitVec.ofNat 32 i) r) result) := by
  have hrest : ∀ left i, i + left = size → ∀ fuel, left < fuel → ∀ r, cpuLoop size body fuel (BitVec.ofNat 32 i) r
      = some ((List.range' i left).foldl (fun r i => body (BitVec.ofNat 32 i) r) r) := by
    intro left
    induction left with
    | zero =>
        intro i hi fuel hfuel r
        obtain ⟨fuel, rfl⟩ : ∃ n, fuel = n + 1 := ⟨fuel - 1, by omega⟩
        rw [cpuLoop, BitVec.toNat_ofNat, Nat.mod_eq_of_lt (by omega), if_neg (by omega)]
        rfl
    | succ left ih =>
        intro i hi fuel hfuel r
        obtain ⟨fuel, rfl⟩ : ∃ n, fuel = n + 1 := ⟨fuel - 1, by omega⟩
        rw [cpuLoop, BitVec.toNat_ofNat, Nat.mod_eq_of_lt (by omega), if_pos (by omega), List.range'_succ,
          List.foldl_cons, ← ih (i + 1) (by omega) fuel (by omega), BitVec.ofNat_add]
        rfl
  rw [List.range_eq_range']
  exact hrest size 0 (by omega) fuel hfuel result

end Pnm.Imdb

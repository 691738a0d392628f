import Pnm.Imdb.Agreement
import Pnm.Lib.ByteMem

/-!
# `Imdb.ScanMemory` — scans on the memory of the device

The model of `virtual_address` and of a scan block by block: `memory_` is one array of bytes that all device threads
share, the registers hold addresses in it, and every turn of the loop of `scan_avx2_impl` loads from it and stores to
it. `storeBitsAt` and `storeIndicesAt` are the stores of `Imdb.BitScan` and `Imdb.IndexScan` at an address; `view_*`
say so.

An operation reads the bytes of its column and of its list and writes those of its result (`Reads`, `Writes`). What it
relies on (`Promise`) is a matter of the bytes that it reads, and what it has stored so far (`Progress`) one of the
bytes that it reads and writes, so both survive whatever happens elsewhere.
-/

namespace Pnm.Imdb

open Pnm.Lib

/-- `virtual_address`: the words from an address on. -/
def wordsAt (mem : Mem) (addr : Nat) : Words 32 := fun i => mem.word (addr + 4 * i)

/-- A position in the words is a bit of a byte. -/
theorem bitAt_wordsAt (mem : Mem) (addr p : Nat) :
    bitAt (wordsAt mem addr) p = (mem (addr + p / 8)).getLsbD (p % 8) := by
  rw [bitAt, wordsAt, Mem.getLsbD_word, decide_eq_true (Nat.mod_lt _ (by decide)), Bool.true_and,
    show addr + 4 * (p / 32) + p % 32 / 8 = addr + p / 8 by omega, show p % 32 % 8 = p % 8 by omega]

theorem wordsAt_congr {mem mem' : Mem} {addr i : Nat} (h : ∀ q < 4, mem' (addr + 4 * i + q) = mem (addr + 4 * i + q)) :
    wordsAt mem' addr i = wordsAt mem addr i := by
  rw [wordsAt, wordsAt, Mem.word, Mem.word]
  congr 1
  exact Mem.readLE_congr h

/-! ## One block -/

namespace Registers

variable (regs : Registers)

/-- The registers that a scan reads. -/
def csr : ThreadCSR :=
  { ctrl := regs.ctrl, compMode := regs.params.compMode, sizeSb := regs.params.sizeSb
    minValue := regs.params.minValue, maxValue := regs.params.maxValue, inlistSize := regs.params.inlistSize
    rsltLmt := regs.params.rsltLmt, resSizeSb := regs.result.resSizeSb }

/-- `column_result_addr`. -/
def resultAddr : Nat :=
  match regs.csr.outputType with
  | .bitVector   => regs.params.resAddr.toNat
  | .indexVector => (regs.params.resAddr + regs.params.resIndexOffset).toNat

/-- The areas that the registers point to. -/
def memory (mem : Mem) : ScanMemory :=
  { column := wordsAt mem regs.params.startAddr.toNat
    list := wordsAt mem regs.params.inlistAddr.toNat
    result := wordsAt mem regs.resultAddr }

end Registers

/-- `store` into the bit vector of `size` values at `addr`. -/
def storeBitsAt (addr size : Nat) (mask : BitVec 8) (mem : Mem) (outIndex : Nat) : Option (Nat × Mem) :=
  if outIndex < 4 * bitVectorStorageSize 4 size then some (1, Function.update mem (addr + outIndex) mask) else none

/-- The eight entries that `store` puts together. -/
def indexLanes (base : Nat) (mask : BitVec 8) : Lanes :=
  fun k => BitVec.ofNat 32 base + BitVec.ofNat 32 (permuteLane mask k)

/-- `store` into the index vector with `limit` entries at `addr`. -/
def storeIndicesAt (addr limit base : Nat) (mask : BitVec 8) (mem : Mem) (outIndex : Nat) : Option (Nat × Mem) :=
  if outIndex + 8 ≤ limit then
    some (popcount mask,
      Mem.writeWords 4 mem (addr + 4 * outIndex) ((List.range 8).map fun k => (indexLanes base mask k).toNat))
  else none

/-- A turn of the loop of `scan_avx2_impl`, at row `i`: the number of stored elements and the memory. -/
def scanBlock (regs : Registers) (mem : Mem) (i base count : Nat) : Option (Nat × Mem) := do
  let mask ← blockMask (regs.csr.columnView (regs.memory mem)) (regs.csr.predicate (regs.memory mem)) base
  match regs.csr.outputType with
  | .bitVector   => storeBitsAt regs.resultAddr regs.params.sizeSb.toNat mask mem count
  | .indexVector => storeIndicesAt regs.resultAddr regs.params.rsltLmt.toNat i mask mem count

/-- Writing a byte of the memory is `setByte` in the words. -/
theorem wordsAt_update (mem : Mem) (addr a : Nat) (x : BitVec 8) :
    wordsAt (Function.update mem (addr + a) x) addr = setByte (wordsAt mem addr) a x := by
  funext i
  refine BitVec.eq_of_getLsbD_eq fun k hk => ?_
  rw [← BitCompressed.bitAt_add hk, ← BitCompressed.bitAt_add hk, bitAt_setByte, bitAt_wordsAt, bitAt_wordsAt,
    Function.update_apply]
  by_cases hbyte : (32 * i + k) / 8 = a
  · rw [if_pos (by omega), if_pos hbyte]
  · rw [if_neg (by omega), if_neg hbyte]

/-- **`store` into an index vector, through its view.** -/
theorem view_storeIndicesAt {addr limit base : Nat} {mask : BitVec 8} {mem mem' : Mem} {outIndex stored : Nat}
    (h : storeIndicesAt addr limit base mask mem outIndex = some (stored, mem')) :
    storeIndices base mask ⟨limit, wordsAt mem addr⟩ outIndex = some (stored, ⟨limit, wordsAt mem' addr⟩) := by
  unfold storeIndicesAt at h
  split at h
  · rename_i hin
    obtain ⟨rfl, rfl⟩ := Prod.mk.inj (Option.some.inj h)
    rw [storeIndices, IndexView.store256, if_pos hin]
    show some (popcount mask, IndexView.write ⟨limit, wordsAt mem addr⟩ outIndex (indexLanes base mask)) = _
    congr 2
    rw [IndexView.write, IndexView.mk.injEq]
    refine ⟨rfl, funext fun k => ?_⟩
    dsimp only
    split
    · rename_i hk
      rw [wordsAt, Mem.word, show addr + 4 * k = addr + 4 * outIndex + 4 * (k - outIndex) by omega,
        Mem.readLE_writeWords (by simp; omega), List.getElem_map, List.getElem_range]
      refine BitVec.eq_of_toNat_eq ?_
      rw [BitVec.toNat_ofNat, Nat.mod_mod_of_dvd _ (by decide), Nat.mod_eq_of_lt (BitVec.isLt _)]
    · rename_i hk
      refine (wordsAt_congr fun q hq => Mem.writeWords_apply_disjoint _ ?_).symm
      simp only [List.length_map, List.length_range]
      omega
  · cases h

/-- A store changes only the storage of its bit vector. -/
theorem storeBitsAt_frame {addr size : Nat} {mask : BitVec 8} {mem mem' : Mem} {outIndex stored a : Nat}
    (h : storeBitsAt addr size mask mem outIndex = some (stored, mem')) (ha : mem' a ≠ mem a) :
    addr ≤ a ∧ a < addr + 4 * bitVectorStorageSize 4 size := by
  unfold storeBitsAt at h
  split at h
  · obtain ⟨-, rfl⟩ := Prod.mk.inj (Option.some.inj h)
    by_cases hat : a = addr + outIndex
    · omega
    · exact absurd (Function.update_of_ne hat _ _) ha
  · cases h

/-- A store changes only the entries of its index vector. -/
theorem storeIndicesAt_frame {addr limit base : Nat} {mask : BitVec 8} {mem mem' : Mem} {outIndex stored a : Nat}
    (h : storeIndicesAt addr limit base mask mem outIndex = some (stored, mem')) (ha : mem' a ≠ mem a) :
    addr ≤ a ∧ a < addr + 4 * limit := by
  unfold storeIndicesAt at h
  split at h
  · obtain ⟨-, rfl⟩ := Prod.mk.inj (Option.some.inj h)
    by_contra hout
    refine ha (Mem.writeWords_apply_disjoint _ ?_)
    simp only [List.length_map, List.length_range]
    omega
  · cases h

/-! ## Operations -/

/-- The lookup bound of a list of less than `2 ^ 31` values. -/
theorem toInt_maxIndex_of_lt {size : Nat} (h : size < 2 ^ 31) : (maxIndex size).toInt = ((size + 31) / 32 : Nat) := by
  by_cases hpos : 0 < size
  · rw [toInt_maxIndex hpos (by omega), Int.bmod_def]
    omega
  · obtain rfl : size = 0 := by omega
    decide

theorem le_bitVectorStorageSize (size : Nat) : size ≤ 32 * bitVectorStorageSize 4 size :=
  le_alignedStorageSize (show 4 ∣ 64 by decide) size

/-- What a lane tests in a list, in terms of its words. -/
theorem accepts_inList_eq {list : BitVectorView 32} (h : list.size < 2 ^ 31) (v : BitVec 32) :
    (ScanPredicate.inList list).accepts v
      = (decide (v.toNat / 32 < (list.size + 31) / 32) && bitAt list.data v.toNat) := by
  rw [ScanPredicate.accepts, BitVec.slt_eq_decide, toInt_srlv_five, toInt_maxIndex_of_lt h]
  congr 1
  rw [decide_eq_decide]
  omega

namespace ScanOperation

variable (op : ScanOperation)

/-- The column in memory. -/
def columnView (mem : Mem) : BitCompressed 32 :=
  { valueBits := op.bitCompression.toNat, size := op.elementsCount.toNat, data := wordsAt mem op.column.toNat }

/-- The predicate, with its list in memory. -/
def scanPredicate (mem : Mem) : ScanPredicate :=
  match op.predicate with
  | .range first last     => .inRange first last
  | .inList maxValue data => .inList { size := maxValue.toNat, data := wordsAt mem data.toNat }

/-- The bytes of the list. -/
def ReadsList (a : Nat) : Prop :=
  match op.predicate with
  | .range _ _            => False
  | .inList maxValue data => data.toNat ≤ a ∧ a < data.toNat + 4 * bitVectorStorageSize 4 maxValue.toNat

/-- The bytes that the operation reads: the storages of the column and of the list. -/
def Reads (a : Nat) : Prop :=
  (op.column.toNat ≤ a ∧
    a < op.column.toNat + 4 * compressedVectorStorageSize 4 op.bitCompression.toNat op.elementsCount.toNat) ∨
  op.ReadsList a

/-- The bytes that the operation may write: its result. -/
def Writes (a : Nat) : Prop :=
  op.result.toNat ≤ a ∧ a < op.result.toNat +
    match op.outputType with
    | .bitVector   => 4 * bitVectorStorageSize 4 op.elementsCount.toNat
    | .indexVector => 4 * op.resultSize.toNat

/-- The lanes of all blocks. -/
def lanes : Nat := 8 * ((op.elementsCount.toNat + 7) / 8)

/-- The test of a lane. -/
def accepts (mem : Mem) (i : Nat) : Bool := (op.scanPredicate mem).accepts ((op.columnView mem).getValue i)

/-- The scalar test of a row. -/
def holds (mem : Mem) (i : Nat) : Bool := (op.scanPredicate mem).holds ((op.columnView mem).getValue i)

/-- A range has bounds below `2 ^ 31`. A list has less than `2 ^ 31` values, and no bit is set behind them. -/
def PredicateOk (mem : Mem) : Prop :=
  match op.predicate with
  | .range first last     => first.toNat < 2 ^ 31 ∧ last.toNat < 2 ^ 31
  | .inList maxValue data => maxValue.toNat < 2 ^ 31 ∧
      ∀ v ≥ maxValue.toNat, v < 32 * bitVectorStorageSize 4 maxValue.toNat → bitAt (wordsAt mem data.toNat) v = false

/-- **What a caller promises** when it starts an operation. -/
structure Promise (mem : Mem) : Prop where
  bits : 1 ≤ op.bitCompression.toNat ∧ op.bitCompression.toNat ≤ 18
  predicate : op.PredicateOk mem
  /-- An index vector has room for the last block, and no lane behind the last row is accepted. -/
  index : op.outputType = .indexVector → op.resultSize.toNat < 2 ^ 32 ∧ op.elementsCount.toNat ≤ 2 ^ 32 ∧
    LastFits (op.columnView mem) (op.scanPredicate mem) op.resultSize.toNat ∧
    ∀ i ≥ op.elementsCount.toNat, i < op.lanes → op.accepts mem i = false
  /-- The result is not part of the input. -/
  separate : ∀ a, op.Writes a → ¬ op.Reads a

/-- **What the operation is for**: the result in memory and its size are those of the scalar scan. -/
def Correct (mem : Mem) (result : ScanResult) : Prop :=
  match op.outputType with
  | .bitVector => result.resSizeSb = op.elementsCount ∧
      ∀ i < op.elementsCount.toNat, bitAt (wordsAt mem op.result.toNat) i = op.holds mem i
  | .indexVector => result.resSizeSb.toNat = (matchingRows (op.columnView mem) (op.scanPredicate mem)).length ∧
      (List.range result.resSizeSb.toNat).map (fun k => (wordsAt mem op.result.toNat k).toNat)
        = matchingRows (op.columnView mem) (op.scanPredicate mem)

variable {op} {mem mem' : Mem}

/-! ## Only the bytes that are read matter -/

section Congr

variable (hreads : ∀ a, op.Reads a → mem' a = mem a)

include hreads

/-- The lanes of all blocks lie in the storage of the column. -/
theorem getValue_congr (hw : op.bitCompression.toNat ≤ 18) {i : Nat} (hi : i < op.lanes) :
    (op.columnView mem').getValue i = (op.columnView mem).getValue i := by
  have hroom := le_alignedStorageSize (show 4 ∣ 64 by decide) (op.bitCompression.toNat * op.elementsCount.toNat + 512)
  refine BitVec.eq_of_getLsbD_eq fun k _ => ?_
  have hbits : ∀ m, (op.columnView m).valueBits < 32 := by
    intro m
    show op.bitCompression.toNat < 32
    omega
  rw [BitCompressed.getLsbD_getValue (hbits mem'), BitCompressed.getLsbD_getValue (hbits mem)]
  show (decide (k < op.bitCompression.toNat) && bitAt (wordsAt mem' op.column.toNat) (i * op.bitCompression.toNat + k))
    = (decide (k < op.bitCompression.toNat) && bitAt (wordsAt mem op.column.toNat) (i * op.bitCompression.toNat + k))
  by_cases hk : k < op.bitCompression.toNat
  · rw [bitAt_wordsAt, bitAt_wordsAt, hreads]
    left
    have hle : i * op.bitCompression.toNat ≤ (op.elementsCount.toNat + 7) * op.bitCompression.toNat := by
      refine Nat.mul_le_mul_right _ ?_
      unfold lanes at hi
      omega
    rw [Nat.add_mul, Nat.mul_comm op.elementsCount.toNat] at hle
    unfold compressedVectorStorageSize
    omega
  · rw [decide_eq_false hk, Bool.false_and, Bool.false_and]

theorem accepts_congr (hw : op.bitCompression.toNat ≤ 18) (hp : op.PredicateOk mem) {i : Nat} (hi : i < op.lanes) :
    op.accepts mem' i = op.accepts mem i := by
  rw [accepts, accepts, getValue_congr hreads hw hi]
  generalize (op.columnView mem).getValue i = v
  unfold scanPredicate
  unfold PredicateOk at hp
  cases hpred : op.predicate with
  | range first last => rfl
  | inList maxValue data =>
      rw [hpred] at hp
      dsimp only at hp ⊢
      rw [accepts_inList_eq hp.1, accepts_inList_eq hp.1]
      dsimp only
      by_cases hv : v.toNat / 32 < (maxValue.toNat + 31) / 32
      · rw [bitAt_wordsAt, bitAt_wordsAt, hreads]
        right
        unfold ReadsList
        rw [hpred]
        have := le_bitVectorStorageSize maxValue.toNat
        dsimp only
        omega
      · rw [decide_eq_false hv, Bool.false_and, Bool.false_and]

theorem holds_congr (hw : op.bitCompression.toNat ≤ 18) {i : Nat} (hi : i < op.lanes) :
    op.holds mem' i = op.holds mem i := by
  rw [holds, holds, getValue_congr hreads hw hi]
  generalize (op.columnView mem).getValue i = v
  unfold scanPredicate
  cases hpred : op.predicate with
  | range first last => rfl
  | inList maxValue data =>
      dsimp only [ScanPredicate.holds]
      rw [BitVectorView.contains_eq (by decide), BitVectorView.contains_eq (by decide)]
      dsimp only
      by_cases hv : v.toNat < maxValue.toNat
      · rw [bitAt_wordsAt, bitAt_wordsAt, hreads]
        right
        unfold ReadsList
        rw [hpred]
        have := le_bitVectorStorageSize maxValue.toNat
        dsimp only
        omega
      · rw [decide_eq_false hv, Bool.false_and, Bool.false_and]

theorem predicateOk_congr (hp : op.PredicateOk mem) : op.PredicateOk mem' := by
  unfold PredicateOk at hp ⊢
  cases hpred : op.predicate with
  | range first last =>
      rw [hpred] at hp
      exact hp
  | inList maxValue data =>
      rw [hpred] at hp
      refine ⟨hp.1, fun v hv hlt => ?_⟩
      rw [← hp.2 v hv hlt, bitAt_wordsAt, bitAt_wordsAt, hreads]
      right
      unfold ReadsList
      rw [hpred]
      dsimp only
      omega

theorem acceptedLanes_congr (hw : op.bitCompression.toNat ≤ 18) (hp : op.PredicateOk mem) {n : Nat}
    (hn : n ≤ op.lanes) : acceptedLanes (op.columnView mem') (op.scanPredicate mem') n
      = acceptedLanes (op.columnView mem) (op.scanPredicate mem) n := by
  refine List.filter_congr fun i hi => ?_
  exact accepts_congr hreads hw hp (Nat.lt_of_lt_of_le (List.mem_range.mp hi) hn)

theorem matchingRows_congr (hw : op.bitCompression.toNat ≤ 18) :
    matchingRows (op.columnView mem') (op.scanPredicate mem')
      = matchingRows (op.columnView mem) (op.scanPredicate mem) := by
  refine List.filter_congr fun i hi => ?_
  have hlt : i < op.elementsCount.toNat := List.mem_range.mp hi
  refine holds_congr hreads hw ?_
  unfold lanes
  omega

/-- **The promise is about the bytes that are read.** -/
theorem Promise.congr (h : op.Promise mem) : op.Promise mem' := by
  refine ⟨h.bits, predicateOk_congr hreads h.predicate, fun hiv => ?_, h.separate⟩
  obtain ⟨hlimit, hsize, hfits, hpad⟩ := h.index hiv
  refine ⟨hlimit, hsize, ?_, fun i hge hi => ?_⟩
  · refine hfits.imp id fun hlast => ?_
    rw [acceptedLanes_congr hreads h.bits.2 h.predicate]
    · exact hlast
    · show 8 * ((op.elementsCount.toNat - 1) / 8) ≤ op.lanes
      unfold lanes
      omega
  · rw [accepts_congr hreads h.bits.2 h.predicate hi]
    exact hpad i hge hi

end Congr

/-! ## What the registers say -/

/-- The bits of a value and the kind of a predicate share `THREAD_COMP_MODE`. -/
theorem compMode_decode {bits : BitVec 64} (h : bits.toNat ≤ 18) {kind : BitVec 32} (hkind : kind = 0 ∨ kind = 0x100) :
    (((bits &&& 0b11111).setWidth 32 ||| kind) &&& 0b11111).toNat = bits.toNat ∧
      ((bits &&& 0b11111).setWidth 32 ||| kind) &&& 0x100 = kind := by
  have hall : ∀ n ≤ 18, ∀ kind : BitVec 32, kind = 0 ∨ kind = 0x100 →
      (((BitVec.ofNat 64 n &&& 0b11111).setWidth 32 ||| kind) &&& 0b11111).toNat = n ∧
        ((BitVec.ofNat 64 n &&& 0b11111).setWidth 32 ||| kind) &&& 0x100 = kind := by
    intro n hn kind hkind
    rcases hkind with rfl | rfl
    · revert n
      decide
    · revert n
      decide
  have := hall bits.toNat h kind hkind
  rwa [BitVec.ofNat_toNat, BitVec.setWidth_eq] at this

section Decode

variable {regs : Registers} (hwritten : regs.WrittenBy op)

include hwritten

theorem outputType_of_written : regs.csr.outputType = op.outputType := by
  show (if regs.ctrl &&& 0b10 = 0b10 then OutputType.indexVector else .bitVector) = op.outputType
  rw [hwritten.2, outputFlag]
  cases op.outputType with
  | bitVector => decide
  | indexVector => decide

theorem resultAddr_of_written : regs.resultAddr = op.result.toNat := by
  have hzero : op.result + 0 = op.result := BitVec.add_zero _
  unfold Registers.resultAddr
  rw [hwritten.1]
  split
  · rfl
  · show (op.result + 0).toNat = op.result.toNat
    rw [hzero]

theorem columnView_of_written (hw : op.bitCompression.toNat ≤ 18) (mem : Mem) :
    regs.csr.columnView (regs.memory mem) = op.columnView mem := by
  have hbits : regs.csr.bitSize = op.bitCompression.toNat := by
    show (regs.params.compMode &&& 0b11111).toNat = _
    rw [hwritten.1, params]
    dsimp only
    cases op.predicate with
    | range first last => exact (compMode_decode hw (.inl rfl)).1
    | inList maxValue data => exact (compMode_decode hw (.inr rfl)).1
  unfold ThreadCSR.columnView columnView
  rw [hbits]
  show BitCompressed.mk _ regs.params.sizeSb.toNat (wordsAt mem regs.params.startAddr.toNat) = _
  rw [hwritten.1]
  rfl

theorem predicate_of_written (hw : op.bitCompression.toNat ≤ 18) (hp : op.PredicateOk mem) :
    regs.csr.predicate (regs.memory mem) = op.scanPredicate mem := by
  have hkind : ∀ kind : BitVec 32, kind = 0 ∨ kind = 0x100 →
      regs.params.compMode = (op.bitCompression &&& 0b11111).setWidth 32 ||| kind →
      regs.csr.operationType = if kind = 0x100 then .inList else .inRange := by
    intro kind hkind hmode
    show (if regs.params.compMode &&& 0x100 = 0x100 then OperationType.inList else .inRange) = _
    rw [hmode, (compMode_decode hw hkind).2]
  unfold ThreadCSR.predicate scanPredicate
  unfold PredicateOk at hp
  cases hpred : op.predicate with
  | range first last =>
      have hmode : regs.params.compMode = (op.bitCompression &&& 0b11111).setWidth 32 ||| 0 := by
        rw [hwritten.1, params, hpred]
      rw [hkind 0 (.inl rfl) hmode, if_neg (by decide)]
      show ScanPredicate.inRange regs.params.minValue regs.params.maxValue = _
      rw [hwritten.1, params, hpred]
  | inList maxValue data =>
      rw [hpred] at hp
      have hmode : regs.params.compMode = (op.bitCompression &&& 0b11111).setWidth 32 ||| 0x100 := by
        rw [hwritten.1, params, hpred]
      have hsize : (maxValue.setWidth 32).toNat = maxValue.toNat := by
        rw [BitVec.toNat_setWidth]
        exact Nat.mod_eq_of_lt (Nat.lt_trans hp.1 (by decide))
      rw [hkind 0x100 (.inr rfl) hmode, if_pos rfl]
      show ScanPredicate.inList ⟨regs.params.inlistSize.toNat, wordsAt mem regs.params.inlistAddr.toNat⟩ = _
      rw [hwritten.1, params, hpred]
      dsimp only
      rw [hsize]

/-- **A turn of the loop**, in terms of the operation. -/
theorem scanBlock_of_written (h : op.Promise mem) (i base count : Nat) :
    scanBlock regs mem i base count
      = (blockMask (op.columnView mem) (op.scanPredicate mem) base).bind fun mask =>
          match op.outputType with
          | .bitVector   => storeBitsAt op.result.toNat op.elementsCount.toNat mask mem count
          | .indexVector => storeIndicesAt op.result.toNat op.resultSize.toNat i mask mem count := by
  unfold scanBlock
  rw [columnView_of_written hwritten h.bits.2, predicate_of_written hwritten h.bits.2 h.predicate,
    outputType_of_written hwritten, resultAddr_of_written hwritten, hwritten.1]
  refine congrArg _ (funext fun mask => ?_)
  cases hout : op.outputType with
  | bitVector => rfl
  | indexVector =>
      have hlimit : op.params.rsltLmt.toNat = op.resultSize.toNat := by
        show (if op.outputType = .bitVector then 0 else op.resultSize.setWidth 32).toNat = _
        rw [hout, if_neg nofun, BitVec.toNat_setWidth]
        exact Nat.mod_eq_of_lt (h.index hout).1
      dsimp only
      rw [hlimit]

end Decode

/-! ## Lanes and rows -/

/-- **The lanes test what the scalar scan tests.** -/
theorem Promise.accepts_eq_holds (h : op.Promise mem) (i : Nat) : op.accepts mem i = op.holds mem i := by
  have hv := BitCompressed.getValue_lt (show (op.columnView mem).valueBits ≤ 18 from h.bits.2) i
  have hp := h.predicate
  rw [accepts, holds]
  generalize (op.columnView mem).getValue i = v at hv ⊢
  unfold PredicateOk at hp
  unfold scanPredicate
  cases hpred : op.predicate with
  | range first last =>
      rw [hpred] at hp
      exact ScanPredicate.accepts_inRange (by omega) hp.1 hp.2
  | inList maxValue data =>
      rw [hpred] at hp
      dsimp only at hp ⊢
      rw [accepts_inList_eq (show maxValue.toNat < 2 ^ 31 from hp.1), ScanPredicate.holds,
        BitVectorView.contains_eq (by decide)]
      dsimp only
      by_cases hlt : v.toNat < maxValue.toNat
      · rw [decide_eq_true hlt, decide_eq_true (by omega)]
      · -- a bit behind the list is not set
        rw [decide_eq_false hlt, Bool.false_and]
        by_cases hword : v.toNat / 32 < (maxValue.toNat + 31) / 32
        · have := le_bitVectorStorageSize maxValue.toNat
          rw [hp.2 v.toNat (Nat.not_lt.mp hlt) (by omega), Bool.and_false]
        · rw [decide_eq_false hword, Bool.false_and]

/-- The lanes of all blocks that are accepted are the matching rows. -/
theorem Promise.acceptedLanes_eq (h : op.Promise mem) (hiv : op.outputType = .indexVector) :
    acceptedLanes (op.columnView mem) (op.scanPredicate mem) op.lanes
      = matchingRows (op.columnView mem) (op.scanPredicate mem) := by
  obtain ⟨-, -, -, hpad⟩ := h.index hiv
  have hrows : acceptedLanes (op.columnView mem) (op.scanPredicate mem) op.lanes
      = acceptedLanes (op.columnView mem) (op.scanPredicate mem) op.elementsCount.toNat :=
    acceptedLanes_eq_of_padding fun i hi hge => hpad i hge hi
  rw [hrows]
  exact List.filter_congr fun i _ => h.accepts_eq_holds i

theorem Promise.length_matchingRows_le (h : op.Promise mem) (hiv : op.outputType = .indexVector) :
    (matchingRows (op.columnView mem) (op.scanPredicate mem)).length ≤ op.resultSize.toNat := by
  rw [← h.acceptedLanes_eq hiv]
  exact count_le_of_roomForBlock (h.index hiv).2.2.1

/-! ## The progress of a scan -/

/-- **What a scan has stored** after `b` blocks. -/
def Progress (op : ScanOperation) (mem : Mem) (b count : Nat) : Prop :=
  match op.outputType with
  | .bitVector => count = b ∧ ∀ i < 8 * b, bitAt (wordsAt mem op.result.toNat) i = op.accepts mem i
  | .indexVector =>
      count = (acceptedLanes (op.columnView mem) (op.scanPredicate mem) (8 * b)).length ∧
      (List.range count).map (wordsAt mem op.result.toNat)
        = (acceptedLanes (op.columnView mem) (op.scanPredicate mem) (8 * b)).map (BitVec.ofNat 32)

theorem progress_zero (op : ScanOperation) (mem : Mem) : op.Progress mem 0 0 := by
  unfold Progress
  split
  · exact ⟨rfl, fun i hi => absurd hi (Nat.not_lt_zero i)⟩
  · exact ⟨rfl, rfl⟩

/-- **One more block.** The load and the store stay inside the storages, only bytes of the result change, and the
    result has the lanes of the block. -/
theorem Promise.scanBlock (h : op.Promise mem) {regs : Registers} (hwritten : regs.WrittenBy op) {b count : Nat}
    (hb : 8 * b < op.elementsCount.toNat) (hprog : op.Progress mem b count) :
    ∃ stored mem', scanBlock regs mem (8 * b) (b * op.bitCompression.toNat) count = some (stored, mem') ∧
      (∀ a, mem' a ≠ mem a → op.Writes a) ∧ op.Progress mem' (b + 1) (count + stored) := by
  have hw : (op.columnView mem).valueBits ≤ 18 := h.bits.2
  have hlanes : 8 * (b + 1) ≤ op.lanes := by
    unfold lanes
    omega
  -- the input is as before
  have hinput : ∀ mem' : Mem, (∀ a, mem' a ≠ mem a → op.Writes a) → ∀ a, op.Reads a → mem' a = mem a := by
    intro mem' hframe a hread
    by_contra hne
    exact h.separate a (hframe a hne) hread
  rw [scanBlock_of_written hwritten h]
  cases hout : op.outputType with
  | bitVector =>
      rw [Progress, hout] at hprog
      obtain ⟨rfl, hbits⟩ := hprog
      obtain ⟨mask, hblock, hmask⟩ := blockMask_eq (op.scanPredicate mem) hw hb
      have hroom : count < 4 * bitVectorStorageSize 4 op.elementsCount.toNat := by
        have := le_bitVectorStorageSize op.elementsCount.toNat
        omega
      have hstore : storeBitsAt op.result.toNat op.elementsCount.toNat mask mem count
          = some (1, Function.update mem (op.result.toNat + count) mask) := if_pos hroom
      have hframe : ∀ a, Function.update mem (op.result.toNat + count) mask a ≠ mem a → op.Writes a := by
        intro a ha
        have := storeBitsAt_frame hstore ha
        unfold Writes
        rw [hout]
        exact ⟨this.1, this.2⟩
      refine ⟨1, _, ?_, hframe, ?_⟩
      · show (blockMask _ _ (count * (op.columnView mem).valueBits)).bind _ = _
        rw [hblock]
        exact hstore
      · rw [Progress, hout]
        refine ⟨rfl, fun i hi => ?_⟩
        rw [accepts_congr (hinput _ hframe) h.bits.2 h.predicate (by omega), wordsAt_update, bitAt_setByte]
        split
        · rename_i hlast
          rw [hmask _ (Nat.mod_lt _ (by decide)), show 8 * count + i % 8 = i by omega]
          rfl
        · exact hbits i (by omega)
  | indexVector =>
      rw [Progress, hout] at hprog
      obtain ⟨hcount, hentries⟩ := hprog
      have hfits := roomForBlock_iff.mpr (h.index hout).2.2.1 b hb
      have hreported : Reported (op.columnView mem) (op.scanPredicate mem)
          ⟨op.resultSize.toNat, wordsAt mem op.result.toNat⟩ (8 * b) count
          ⟨op.resultSize.toNat, wordsAt mem op.result.toNat⟩ := ⟨hcount, rfl, hentries, fun _ _ => rfl⟩
      obtain ⟨mask, stored, out, hblock, hview, hnext⟩ := hreported.step hw hb hfits
      have hroom : count + 8 ≤ op.resultSize.toNat := by
        rw [hcount]
        exact hfits
      obtain ⟨mem', hstore⟩ : ∃ mem', storeIndicesAt op.result.toNat op.resultSize.toNat (8 * b) mask mem count
          = some (popcount mask, mem') := ⟨_, if_pos hroom⟩
      obtain ⟨rfl, rfl⟩ := Prod.mk.inj (Option.some.inj (hview.symm.trans (view_storeIndicesAt hstore)))
      have hframe : ∀ a, mem' a ≠ mem a → op.Writes a := by
        intro a ha
        have := storeIndicesAt_frame hstore ha
        unfold Writes
        rw [hout]
        exact ⟨this.1, this.2⟩
      refine ⟨popcount mask, mem', ?_, hframe, ?_⟩
      · show (blockMask _ _ (b * (op.columnView mem).valueBits)).bind _ = _
        rw [hblock]
        exact hstore
      · rw [Progress, hout]
        dsimp only
        rw [acceptedLanes_congr (hinput _ hframe) h.bits.2 h.predicate hlanes]
        exact ⟨hnext.count_eq, hnext.entries⟩

section Congr

variable (hwrites : ∀ a, op.Writes a → mem' a = mem a)

include hwrites

/-- The first words of a result are inside it. -/
theorem wordsAt_result_congr (hiv : op.outputType = .indexVector) {k : Nat} (hk : k < op.resultSize.toNat) :
    wordsAt mem' op.result.toNat k = wordsAt mem op.result.toNat k := by
  refine wordsAt_congr fun q hq => hwrites _ ?_
  unfold Writes
  rw [hiv]
  dsimp only
  omega

theorem bitAt_result_congr (hbv : op.outputType = .bitVector) {i : Nat} (hi : i < op.lanes) :
    bitAt (wordsAt mem' op.result.toNat) i = bitAt (wordsAt mem op.result.toNat) i := by
  rw [bitAt_wordsAt, bitAt_wordsAt, hwrites]
  unfold Writes
  unfold lanes at hi
  rw [hbv]
  have := le_bitVectorStorageSize op.elementsCount.toNat
  dsimp only
  omega

variable (hreads : ∀ a, op.Reads a → mem' a = mem a)

include hreads

/-- **What happens elsewhere does not matter to a running scan.** -/
theorem Progress.congr {b count : Nat} (hprog : op.Progress mem b count) (h : op.Promise mem)
    (hb : 8 * b ≤ op.lanes) : op.Progress mem' b count := by
  unfold Progress at hprog ⊢
  cases hout : op.outputType with
  | bitVector =>
      rw [hout] at hprog
      obtain ⟨hcount, hbits⟩ := hprog
      refine ⟨hcount, fun i hi => ?_⟩
      rw [bitAt_result_congr hwrites hout (by omega), accepts_congr hreads h.bits.2 h.predicate (by omega)]
      exact hbits i hi
  | indexVector =>
      rw [hout] at hprog
      obtain ⟨hcount, hentries⟩ := hprog
      have hle : count ≤ op.resultSize.toNat := by
        rw [hcount]
        exact (length_acceptedLanes_mono _ _ hb).trans (count_le_of_roomForBlock (h.index hout).2.2.1)
      dsimp only
      rw [acceptedLanes_congr hreads h.bits.2 h.predicate hb]
      refine ⟨hcount, Eq.trans (List.map_congr_left fun k hk => ?_) hentries⟩
      exact wordsAt_result_congr hwrites hout (Nat.lt_of_lt_of_le (List.mem_range.mp hk) hle)

/-- **Nor to a result.** -/
theorem Correct.congr {result : ScanResult} (hcorrect : op.Correct mem result) (h : op.Promise mem) :
    op.Correct mem' result := by
  unfold Correct at hcorrect ⊢
  cases hout : op.outputType with
  | bitVector =>
      rw [hout] at hcorrect
      obtain ⟨hsize, hbits⟩ := hcorrect
      refine ⟨hsize, fun i hi => ?_⟩
      have hlane : i < op.lanes := by
        unfold lanes
        omega
      rw [bitAt_result_congr hwrites hout hlane, holds_congr hreads h.bits.2 hlane]
      exact hbits i hi
  | indexVector =>
      rw [hout] at hcorrect
      obtain ⟨hsize, hentries⟩ := hcorrect
      dsimp only
      rw [matchingRows_congr hreads h.bits.2]
      refine ⟨hsize, Eq.trans (List.map_congr_left fun k hk => ?_) hentries⟩
      have hlt := List.mem_range.mp hk
      rw [hsize] at hlt
      rw [wordsAt_result_congr hwrites hout (Nat.lt_of_lt_of_le hlt (h.length_matchingRows_le hout))]

end Congr

/-- The size that a scan reports: all rows for a bit vector, and the count for an index vector. -/
def reportedSize (regs : Registers) (count : Nat) : BitVec 64 :=
  match regs.csr.outputType with
  | .bitVector   => regs.params.sizeSb
  | .indexVector => BitVec.ofNat 64 count

/-- **After the last block the result is right.** -/
theorem Progress.correct {b count : Nat} (hprog : op.Progress mem b count) (h : op.Promise mem)
    (hb : 8 * b = op.lanes) {regs : Registers} (hwritten : regs.WrittenBy op) {result : ScanResult}
    (hresult : result.resSizeSb = reportedSize regs count) : op.Correct mem result := by
  unfold Progress at hprog
  unfold Correct
  rw [hresult, reportedSize, outputType_of_written hwritten, hwritten.1]
  cases hout : op.outputType with
  | bitVector =>
      rw [hout] at hprog
      refine ⟨rfl, fun i hi => ?_⟩
      have hlane : i < 8 * b := by
        rw [hb, lanes]
        omega
      rw [hprog.2 i hlane, h.accepts_eq_holds]
  | indexVector =>
      rw [hout] at hprog
      obtain ⟨hcount, hentries⟩ := hprog
      rw [hb, h.acceptedLanes_eq hout] at hcount hentries
      obtain ⟨hlimit, hrows, -⟩ := h.index hout
      have hle := h.length_matchingRows_le hout
      have hsize : (BitVec.ofNat 64 count).toNat = count := by
        rw [BitVec.toNat_ofNat]
        exact Nat.mod_eq_of_lt (by omega)
      dsimp only
      rw [hsize]
      refine ⟨hcount, ?_⟩
      have hmap := congrArg (List.map BitVec.toNat) hentries
      rw [List.map_map, List.map_map] at hmap
      refine hmap.trans ((List.map_congr_left fun i hi => ?_).trans (List.map_id _))
      have hlt : i < op.elementsCount.toNat := List.mem_range.mp (List.mem_filter.mp hi).1
      show (BitVec.ofNat 32 i).toNat = i
      rw [BitVec.toNat_ofNat]
      exact Nat.mod_eq_of_lt (by omega)

end ScanOperation

end Pnm.Imdb

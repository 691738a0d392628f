import Mathlib.Algebra.BigOperators.Ring.List
import Pnm.Lib.ByteMem
import Pnm.Lib.Grid
import Pnm.Lib.Jagged
import Pnm.Lib.Tiling
import Pnm.Sls.Plan

/-!
# `Sls.Operation` — an SLS operation, its limits and its pointer tables

The model of `pnmlib/sls/operation.h`, of the limits `SparseReduction` plans with (`sls/operation/internal.h`)
and of `ExecutionPacksData` (`sls/operation/packs_data.cpp`), which finds for every chunk where its lengths,
its indices and its output start. Sums of lengths are taken by `std::accumulate` with an `int` initial value,
so they are exact only below 2^31 (`accumulate_eq`); pointers are offsets into their array and, being counts of
objects in memory, do not wrap at 64 bits.
-/

namespace Pnm.Sls

open Pnm.Lib

/-- `SlsOperation::Type`. -/
inductive OpType where
  | float
  | uint32
  | uint32Tagged
deriving DecidableEq, Repr

/-- The value of the enumerator, which is also the opcode of its instructions. -/
def OpType.code : OpType → Nat
  | float        => 0
  | uint32       => 2
  | uint32Tagged => 3

/-- `SlsOperation`; `indices` and `lengths` are table-major. -/
structure SlsOperation where
  opType : OpType
  sparseFeatureSize : Nat
  tablesSizes : List Nat
  minibatchSize : Nat
  lengths : List Nat
  indices : List Nat
deriving DecidableEq, Repr

namespace SlsOperation

variable (op : SlsOperation)

/-- `SparseReduction::is_tagged`. -/
def isTagged : Bool := op.opType == .uint32Tagged

/-- `SparseReduction::get_sparse_ft_data_nb`. -/
def sparseFtDataNb (t : Topology) : Nat := op.sparseFeatureSize * t.dataSize

/-- The number of lookups of a (table, batch) pair. -/
def lengthOf (key : Nat × Nat) : Nat := op.lengths.getD (key.1 * op.minibatchSize + key.2) 0

/-- Where the indices of a (table, batch) pair start. -/
def startOf (key : Nat × Nat) : Nat := (op.lengths.take (key.1 * op.minibatchSize + key.2)).sum

/-- The rows a (table, batch) pair looks up, in order. -/
def lookups (key : Nat × Nat) : List Nat := (op.indices.drop (op.startOf key)).take (op.lengthOf key)

end SlsOperation

/-! ## Limits -/

/-- A divider of the instruction buffer that is not below one, through its only effect: `/=` on a size. -/
structure BufDivider where
  divide : Nat → Nat
  divide_le : ∀ n, divide n ≤ n

/-- A whole divider. -/
def BufDivider.ofNat (d : Nat) : BufDivider := ⟨(· / d), fun n => Nat.div_le_self n d⟩

/-- `std::accumulate(first, last, 0)` over `uint32_t` values: every partial sum is converted to `int`. -/
def accumulate (l : List Nat) : Int := l.foldl (fun acc (x : Nat) => (acc + x).bmod (2 ^ 32)) 0

/-- `SparseReduction::choose_optimal_buf_divider`. -/
def chooseOptimalBufDivider (lengths : List Nat) : BufDivider :=
  let instCount := accumulate lengths
  .ofNat <|
    if instCount < 1500 then 65
    else if instCount < 5000 then 38
    else if instCount < 10000 then 32
    else if instCount < 50000 then 16
    else if instCount < 140000 then 8
    else if instCount < 600000 then 4
    else 2

/-- `SparseReduction::set_instr_buffer_size`; `env` is the divider `SLS_BUF_DIVIDER` asks for, if set. -/
def setInstrBufferSize (env : Option BufDivider) (lengths : List Nat) (maxInstInBuf : Nat) : Nat :=
  let bufDivider := env.getD (chooseOptimalBufDivider lengths)
  -- buffer size cannot be less than max_num_lookup
  max (longest lengths) (bufDivider.divide maxInstInBuf)

/-- The limits `SparseReduction::init_exec_gen` plans with. -/
def SlsOperation.limits (op : SlsOperation) (t : Topology) (env : Option BufDivider) : Limits where
  maxInst := setInstrBufferSize env op.lengths t.instPerSingleBufNoHeader
  maxFeatures := t.psumSingleBufSize / op.sparseFtDataNb t
  sparseFeatureInBytes := op.sparseFtDataNb t

/-- Whatever the divider, the limit admits every batch and, if the longest batch does, fits the buffer. -/
theorem le_setInstrBufferSize (env : Option BufDivider) {lengths : List Nat} {l : Nat} (h : l ∈ lengths)
    (n : Nat) : l ≤ setInstrBufferSize env lengths n :=
  Nat.le_trans (le_longest h) (Nat.le_max_left _ _)

theorem setInstrBufferSize_le (env : Option BufDivider) {lengths : List Nat} {n : Nat}
    (h : ∀ l ∈ lengths, l ≤ n) : setInstrBufferSize env lengths n ≤ n :=
  Nat.max_le.mpr ⟨longest_le h, (env.getD _).divide_le n⟩

/-! ## Pointer tables -/

/-- A sum below 2^31 is accumulated exactly. -/
theorem accumulate_eq {l : List Nat} (h : l.sum < 2 ^ 31) : accumulate l = l.sum := by
  have key : ∀ (l : List Nat) (acc : Nat), acc + l.sum < 2 ^ 31 →
      l.foldl (fun (acc : Int) (x : Nat) => (acc + x).bmod (2 ^ 32)) acc = acc + l.sum := by
    intro l
    induction l with
    | nil => simp
    | cons x l ih =>
        intro acc h
        rw [List.sum_cons] at h
        have hstep : ((acc : Int) + (x : Nat)).bmod (2 ^ 32) = ((acc + x : Nat) : Int) := by
          rw [Int.bmod_eq_of_le (by omega) (by omega)]
          rfl
        rw [List.foldl_cons, hstep, ih (acc + x) (by omega), List.sum_cons]
        push_cast
        omega
  simpa [accumulate] using key l 0 (by omega)

namespace SlsOperation

variable (op : SlsOperation)

/-- The lengths of one table (from `lengths_offsets_[table_idx]`, `minibatch_size` of them). -/
def tableLengths (tableIdx : Nat) : List Nat :=
  (op.lengths.drop (tableIdx * op.minibatchSize)).take op.minibatchSize

/-- `indices_offsets_[table_idx]` of `init_tables_indexing_data`. -/
def indicesOffset : Nat → Int
  | 0            => 0
  | tableIdx + 1 => indicesOffset tableIdx + accumulate (op.tableLengths tableIdx)

/-- The lengths of a chunk (`length_exec_`). -/
def lengthPtr (td : TableData) : List Nat :=
  op.lengths.drop (td.tableId * op.minibatchSize + td.batchOffset.getD 0)

/-- The indices of a chunk (`index_exec_`): the start of its table plus the lengths before the chunk. -/
def indexPtr (td : TableData) : List Nat :=
  op.indices.drop (op.indicesOffset td.tableId +
    accumulate ((op.lengths.drop (td.tableId * op.minibatchSize)).take (td.batchOffset.getD 0))).toNat

/-- The output of a chunk (`psum_addr_`), as a byte offset into the user's psum. -/
def psumAddr (t : Topology) (td : TableData) : Nat :=
  td.tableId * (op.minibatchSize * op.sparseFtDataNb t) + td.batchOffset.getD 0 * op.sparseFtDataNb t

/-- Every table has fewer than 2^31 lookups, so the `int` sums are exact. -/
def SumsFit : Prop := ∀ i < op.tablesSizes.length, (op.tableLengths i).sum < 2 ^ 31

variable {op}

theorem sum_take_add (l : List Nat) (m n : Nat) :
    (l.take (m + n)).sum = (l.take m).sum + ((l.drop m).take n).sum := by
  rw [List.take_add, List.sum_append]

theorem indicesOffset_eq (h : op.SumsFit) {i : Nat} (hi : i ≤ op.tablesSizes.length) :
    op.indicesOffset i = (op.lengths.take (i * op.minibatchSize)).sum := by
  induction i with
  | zero => simp [indicesOffset]
  | succ i ih =>
      rw [indicesOffset, ih (by omega), accumulate_eq (h i (by omega)), Nat.add_mul, Nat.one_mul, sum_take_add]
      push_cast
      rfl

/-- Where the indices of a chunk start, as an offset into the indices. -/
def indexOffset (op : SlsOperation) (td : TableData) : Int :=
  op.indicesOffset td.tableId +
    accumulate ((op.lengths.drop (td.tableId * op.minibatchSize)).take (td.batchOffset.getD 0))

/-- The index offset of a chunk is the number of lookups before its first batch. -/
theorem indexOffset_eq (h : op.SumsFit) {td : TableData} (hid : td.tableId < op.tablesSizes.length)
    (hoff : td.batchOffset.getD 0 ≤ op.minibatchSize) :
    op.indexOffset td = op.startOf (td.tableId, td.batchOffset.getD 0) := by
  have hle : ((op.lengths.drop (td.tableId * op.minibatchSize)).take (td.batchOffset.getD 0)).sum < 2 ^ 31 := by
    refine Nat.lt_of_le_of_lt ?_ (h td.tableId hid)
    have hsplit := sum_take_add (op.lengths.drop (td.tableId * op.minibatchSize)) (td.batchOffset.getD 0)
      (op.minibatchSize - td.batchOffset.getD 0)
    rw [Nat.add_sub_cancel' hoff] at hsplit
    rw [tableLengths, hsplit]
    exact Nat.le_add_right _ _
  rw [indexOffset, indicesOffset_eq h (by omega), accumulate_eq hle, startOf, sum_take_add]
  push_cast
  rfl

/-- **The index pointer of a chunk** is the start of the indices of its first batch. -/
theorem indexPtr_eq (h : op.SumsFit) {td : TableData} (hid : td.tableId < op.tablesSizes.length)
    (hoff : td.batchOffset.getD 0 ≤ op.minibatchSize) :
    op.indexPtr td = op.indices.drop (op.startOf (td.tableId, td.batchOffset.getD 0)) := by
  show op.indices.drop (op.indexOffset td).toNat = _
  rw [indexOffset_eq h hid hoff, Int.toNat_natCast]

end SlsOperation

/-! ## Scattering a result -/

/-- `current_table_data_size` of `write_result`, a `uint32_t` product. -/
def chunkSize (size : Nat) (td : TableData) : Nat := td.tableBatchesChunk * size % 2 ^ 32

/-- The private `SparseReduction::write_result`: copy the chunks from the front of `src`, one after the other, each to
    its place in the output. -/
def writeResult (size : Nat) (dst : TableData → Nat) (src : Mem) : List TableData → Nat → Mem → Mem
  | [], _, out                      => out
  | td :: tds, buffTableOffset, out =>
      writeResult size dst src tds (buffTableOffset + chunkSize size td)
        (out.copy (dst td) src buffTableOffset (chunkSize size td))

section WriteResult

variable {size : Nat} {dst : TableData → Nat} {src out : Mem} {tds : List TableData} {buf x : Nat}

/-- **Frame.** Nothing is written outside the chunks. -/
theorem writeResult_frame (h : ∀ td ∈ tds, ¬ InSpan (dst td, chunkSize size td) x) :
    writeResult size dst src tds buf out x = out x := by
  induction tds generalizing buf out with
  | nil => rfl
  | cons td tds ih =>
      rw [writeResult, ih fun y hy => h y (List.mem_cons_of_mem _ hy)]
      exact if_neg (h td List.mem_cons_self)

/-- **Inside.** What is written for a chunk comes from behind the chunks before it, if no later chunk is written over
    it. -/
theorem writeResult_inside {pre post : List TableData} {td : TableData} {i : Nat} (hi : i < chunkSize size td)
    (hlater : ∀ y ∈ post, ¬ InSpan (dst y, chunkSize size y) (dst td + i)) :
    writeResult size dst src (pre ++ td :: post) buf out (dst td + i)
      = src (buf + (pre.map (chunkSize size)).sum + i) := by
  induction pre generalizing buf out with
  | nil =>
      rw [List.nil_append, writeResult, writeResult_frame hlater, Mem.copy, if_pos (by omega)]
      simp
  | cons y pre ih => rw [List.cons_append, writeResult, ih, List.map_cons, List.sum_cons, ← Nat.add_assoc]

/-- What is written does not depend on what was there. -/
theorem writeResult_congr (out out' : Mem) (h : ∃ td ∈ tds, InSpan (dst td, chunkSize size td) x) :
    writeResult size dst src tds buf out x = writeResult size dst src tds buf out' x := by
  induction tds generalizing buf out out' with
  | nil => simp at h
  | cons td tds ih =>
      rw [writeResult, writeResult]
      by_cases hlater : ∃ y ∈ tds, InSpan (dst y, chunkSize size y) x
      · exact ih _ _ hlater
      · have hnot : ∀ y ∈ tds, ¬ InSpan (dst y, chunkSize size y) x := fun y hy hin => hlater ⟨y, hy, hin⟩
        have hfirst : InSpan (dst td, chunkSize size td) x := by
          obtain ⟨y, hy, hin⟩ := h
          rcases List.mem_cons.mp hy with rfl | hy
          · exact hin
          · exact absurd hin (hnot y hy)
        rw [writeResult_frame hnot, writeResult_frame hnot]
        exact (if_pos hfirst).trans (if_pos hfirst).symm

end WriteResult

theorem TableData.length_keys (td : TableData) : td.keys.length = td.tableBatchesChunk := by
  simp [TableData.keys]

theorem TableData.mem_keys {td : TableData} {key : Nat × Nat} :
    key ∈ td.keys ↔ key.1 = td.tableId ∧ td.batchOffset.getD 0 ≤ key.2 ∧
      key.2 < td.batchOffset.getD 0 + td.tableBatchesChunk := by
  obtain ⟨i, b⟩ := key
  simp only [TableData.keys, List.mem_map, List.mem_range'_1, Prod.mk.injEq]
  constructor
  · rintro ⟨c, hc, rfl, rfl⟩
    exact ⟨rfl, hc⟩
  · rintro ⟨rfl, hb⟩
    exact ⟨b, hb, rfl, rfl⟩

theorem TableData.getElem?_keys {td : TableData} {key : Nat × Nat} {k : Nat} (h : td.keys[k]? = some key) :
    k < td.tableBatchesChunk ∧ key = (td.tableId, td.batchOffset.getD 0 + k) := by
  obtain ⟨hk, hkey⟩ := List.getElem?_eq_some_iff.mp h
  rw [length_keys] at hk
  refine ⟨hk, ?_⟩
  rw [← hkey]
  simp [TableData.keys]

namespace SlsOperation

/-- A chunk that lies inside the minibatch of its table. -/
def ChunkOk (op : SlsOperation) (td : TableData) : Prop :=
  td.batchOffset.getD 0 + td.tableBatchesChunk ≤ op.minibatchSize

/-- Where the result of a (table, batch) pair belongs, for results of `size` bytes from `base` on. -/
def place (op : SlsOperation) (base size : Nat) (key : Nat × Nat) : Nat :=
  base + (key.1 * op.minibatchSize + key.2) * size

/-- Where the output of a (table, batch) pair belongs. -/
def keyAddr (op : SlsOperation) (t : Topology) (key : Nat × Nat) : Nat :=
  (key.1 * op.minibatchSize + key.2) * op.sparseFtDataNb t

variable {op : SlsOperation} {t : Topology}

theorem keyAddr_eq_place (key : Nat × Nat) : op.keyAddr t key = op.place 0 (op.sparseFtDataNb t) key :=
  (Nat.zero_add _).symm

theorem psumAddr_eq (td : TableData) : op.psumAddr t td = op.keyAddr t (td.tableId, td.batchOffset.getD 0) := by
  rw [psumAddr, keyAddr, Nat.add_mul, Nat.mul_assoc]

section Place

variable {base size : Nat} {key : Nat × Nat}

/-- The place of a batch lies in the bytes of a chunk exactly if it is one of the chunk's batches. -/
theorem place_cases (base size : Nat) {td : TableData} (htd : op.ChunkOk td) (hb : key.2 < op.minibatchSize) :
    (key ∈ td.keys ∧ op.place base size key
        = op.place base size (td.tableId, td.batchOffset.getD 0) + (key.2 - td.batchOffset.getD 0) * size ∧
        key.2 - td.batchOffset.getD 0 < td.tableBatchesChunk) ∨
      (key ∉ td.keys ∧
        (op.place base size (td.tableId, td.batchOffset.getD 0) + td.tableBatchesChunk * size ≤ op.place base size key ∨
          op.place base size key + size ≤ op.place base size (td.tableId, td.batchOffset.getD 0))) := by
  rw [TableData.mem_keys]
  obtain ⟨i, b⟩ := key
  simp only [place, ChunkOk] at *
  set mb := op.minibatchSize
  set off := td.batchOffset.getD 0
  set n := td.tableBatchesChunk
  by_cases hin : i = td.tableId ∧ off ≤ b ∧ b < off + n
  · refine Or.inl ⟨hin, ?_, by omega⟩
    rw [hin.1, Nat.add_assoc, ← Nat.add_mul]
    congr 2
    omega
  · refine Or.inr ⟨hin, ?_⟩
    -- compare positions in the grid first, then scale
    have hgrid : td.tableId * mb + off + n ≤ i * mb + b ∨ i * mb + b + 1 ≤ td.tableId * mb + off := by
      rcases Nat.lt_trichotomy i td.tableId with hlt | rfl | hgt
      · have : (i + 1) * mb ≤ td.tableId * mb := Nat.mul_le_mul_right mb hlt
        rw [Nat.add_mul] at this
        omega
      · omega
      · have : (td.tableId + 1) * mb ≤ i * mb := Nat.mul_le_mul_right mb hgt
        rw [Nat.add_mul] at this
        omega
    rcases hgrid with h | h
    · left
      have := Nat.mul_le_mul_right size h
      rw [Nat.add_mul] at this
      omega
    · right
      have := Nat.mul_le_mul_right size h
      rw [Nat.add_mul _ 1, Nat.one_mul] at this
      omega

/-- The byte of a batch that is not the chunk's is not a byte of the chunk. -/
theorem not_inSpan_of_not_mem_keys {td : TableData} (htd : op.ChunkOk td) (hb : key.2 < op.minibatchSize)
    (hkey : key ∉ td.keys) {i : Nat} (hi : i < size) :
    ¬ InSpan (op.place base size (td.tableId, td.batchOffset.getD 0), chunkSize size td)
      (op.place base size key + i) := by
  rintro ⟨hle, hlt⟩
  dsimp only at hle hlt
  have hmod : chunkSize size td ≤ td.tableBatchesChunk * size := Nat.mod_le _ _
  rcases place_cases base size htd hb with ⟨hin, -⟩ | ⟨-, hout⟩
  · exact hkey hin
  · omega

/-- The bytes of a batch of the chunk are bytes of the chunk. -/
theorem inSpan_of_mem_keys {td : TableData} (htd : op.ChunkOk td) (hfit : td.tableBatchesChunk * size < 2 ^ 32)
    (hkey : key ∈ td.keys) {i : Nat} (hi : i < size) :
    InSpan (op.place base size (td.tableId, td.batchOffset.getD 0), chunkSize size td)
      (op.place base size key + i) := by
  have hb : key.2 < op.minibatchSize := (TableData.mem_keys.mp hkey).2.2.trans_le htd
  rcases place_cases base size htd hb with ⟨-, hplace, hlt⟩ | ⟨hout, -⟩
  · have hrow := Nat.mul_le_mul_right size (Nat.succ_le_of_lt hlt)
    rw [Nat.succ_mul] at hrow
    rw [hplace, chunkSize, Nat.mod_eq_of_lt hfit]
    exact ⟨by dsimp only; omega, by dsimp only; omega⟩
  · exact absurd hkey hout

variable {dst : TableData → Nat} {src out : Mem} {tds : List TableData} {buf : Nat}

/-- **Other batches.** The result of a batch that no chunk holds is left alone. -/
theorem writeResult_other (hdst : ∀ td, dst td = op.place base size (td.tableId, td.batchOffset.getD 0))
    (hok : ∀ td ∈ tds, op.ChunkOk td) (hb : key.2 < op.minibatchSize) (hkey : key ∉ tds.flatMap TableData.keys)
    {i : Nat} (hi : i < size) :
    writeResult size dst src tds buf out (op.place base size key + i) = out (op.place base size key + i) := by
  refine writeResult_frame fun td htd => ?_
  rw [hdst]
  exact not_inSpan_of_not_mem_keys (hok td htd) hb (fun hin => hkey (List.mem_flatMap.mpr ⟨td, htd, hin⟩)) hi

/-- **Where each batch goes.** The result of the `j`-th batch of the execution is the `j`-th in the buffer. -/
theorem writeResult_key (hdst : ∀ td, dst td = op.place base size (td.tableId, td.batchOffset.getD 0))
    (hok : ∀ td ∈ tds, op.ChunkOk td) (hfit : ∀ td ∈ tds, td.tableBatchesChunk * size < 2 ^ 32)
    (hnd : (tds.flatMap TableData.keys).Nodup) {j : Nat} (hj : (tds.flatMap TableData.keys)[j]? = some key) {i : Nat}
    (hi : i < size) :
    writeResult size dst src tds buf out (op.place base size key + i) = src (buf + j * size + i) := by
  obtain ⟨pre, td, post, k, rfl, hk, rfl⟩ := exists_split_of_getElem?_flatMap hj
  obtain ⟨hlt, rfl⟩ := TableData.getElem?_keys hk
  have htd : td ∈ pre ++ td :: post := by simp
  have hplace : op.place base size (td.tableId, td.batchOffset.getD 0 + k) + i = dst td + (k * size + i) := by
    rw [hdst, place, place]
    dsimp only
    rw [← Nat.add_assoc (td.tableId * _), Nat.add_mul _ k]
    omega
  have hrow : (k + 1) * size ≤ td.tableBatchesChunk * size := Nat.mul_le_mul_right _ hlt
  rw [Nat.add_mul, Nat.one_mul] at hrow
  have hsizes : ∀ y ∈ pre, chunkSize size y = y.keys.length * size := by
    intro y hy
    rw [TableData.length_keys]
    exact Nat.mod_eq_of_lt (hfit y (List.mem_append_left _ hy))
  rw [hplace, writeResult_inside]
  · rw [List.map_congr_left hsizes, List.sum_map_mul_right, Nat.add_mul]
    congr 1
    omega
  · rw [chunkSize, Nat.mod_eq_of_lt (hfit td htd)]
    omega
  · -- the later chunks hold other batches
    intro y hy
    rw [← hplace, hdst]
    have hb : td.batchOffset.getD 0 + td.tableBatchesChunk ≤ op.minibatchSize := hok td htd
    refine not_inSpan_of_not_mem_keys (hok y (by simp [hy])) (by dsimp only; omega) (fun hin => ?_) hi
    rw [List.flatMap_append, List.flatMap_cons, List.nodup_append, List.nodup_append] at hnd
    exact hnd.2.1.2.2 _ (List.mem_of_getElem? hk) _ (List.mem_flatMap.mpr ⟨y, hy, hin⟩) rfl

end Place

section Psum

variable {src psum : Mem} {tds : List TableData} {key : Nat × Nat} {o buf : Nat}

theorem psumAddr_eq_place (td : TableData) :
    op.psumAddr t td = op.place 0 (op.sparseFtDataNb t) (td.tableId, td.batchOffset.getD 0) :=
  (psumAddr_eq td).trans (keyAddr_eq_place _)

/-- The words of a batch that no chunk holds. -/
theorem word_writeResult_other (hok : ∀ td ∈ tds, op.ChunkOk td) (hb : key.2 < op.minibatchSize)
    (hkey : key ∉ tds.flatMap TableData.keys) (ho : o + 4 ≤ op.sparseFtDataNb t) :
    (writeResult (op.sparseFtDataNb t) (op.psumAddr t) src tds buf psum).word (op.keyAddr t key + o)
      = psum.word (op.keyAddr t key + o) := by
  refine congrArg (BitVec.ofNat 32) (Mem.readLE_congr fun i hi => ?_)
  rw [Nat.add_assoc, keyAddr_eq_place]
  exact writeResult_other psumAddr_eq_place hok hb hkey (by omega)

/-- The words of the `j`-th batch. -/
theorem word_writeResult (hok : ∀ td ∈ tds, op.ChunkOk td)
    (hfit : ∀ td ∈ tds, td.tableBatchesChunk * op.sparseFtDataNb t < 2 ^ 32)
    (hnd : (tds.flatMap TableData.keys).Nodup) {j : Nat} (hj : (tds.flatMap TableData.keys)[j]? = some key)
    (ho : o + 4 ≤ op.sparseFtDataNb t) :
    (writeResult (op.sparseFtDataNb t) (op.psumAddr t) src tds buf psum).word (op.keyAddr t key + o)
      = src.word (buf + j * op.sparseFtDataNb t + o) := by
  refine congrArg (BitVec.ofNat 32) (Mem.readLE_congr fun i hi => ?_)
  rw [Nat.add_assoc, Nat.add_assoc _ o, keyAddr_eq_place]
  exact writeResult_key psumAddr_eq_place hok hfit hnd hj (by omega)

end Psum

end SlsOperation

end Pnm.Sls

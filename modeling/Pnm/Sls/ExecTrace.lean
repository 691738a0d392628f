import Mathlib.Algebra.BigOperators.Group.List.Basic
import Pnm.Lib.Grid
import Pnm.Sls.Operation
import Pnm.Sls.Trace

/-!
# `Sls.ExecTrace` — the trace of one execution, batch by batch

`SparseReduction::generate_instructions` puts the pieces together: the chunks of an execution, the pointer
tables and the trace generator. The result that everything later rests on is `filter_execIr`: the
instructions with output index `j` are the lookups of the `j`-th batch of the execution, in order, each with
the address of its row. Position `j` of the device psum buffer thus stands for one (table, batch) pair.
-/

namespace Pnm.Sls

open Pnm.Lib

namespace SlsOperation

variable (op : SlsOperation) (t : Topology)

/-- `bytes_per_row_full_` of `TraceGeneratorCore::init`. -/
def bytesPerRowFull : Nat :=
  (op.sparseFtDataNb t + if op.isTagged then t.alignedTagSize else 0) % 2 ^ 32

/-- The instructions of a list of chunks, the first batch having output index `base`. -/
def chunksIr (objects : List MemoryObject) (computeUnit : Nat) (tds : List TableData) (base : Nat) :
    List InstructionIR :=
  TraceGeneratorCore.generateInstructions (op.bytesPerRowFull t) op.opType.code computeUnit objects tds
    (tds.map op.lengthPtr) (tds.map op.indexPtr) base

/-- The instructions of an execution, before encoding. -/
def execIr (objects : List MemoryObject) (computeUnit : Nat) (exec : Execution) : List InstructionIR :=
  op.chunksIr t objects computeUnit exec.tablesData 0

/-- `SparseReduction::generate_instructions`. -/
def generateInstructions (gen : InstructionGenerator) (objects : List MemoryObject) (computeUnit : Nat)
    (exec : Execution) : List Nat :=
  TraceGenerator.trace gen (op.sparseFtDataNb t) op.isTagged (op.execIr t objects computeUnit exec)

/-- Arrays that fit together: `lengths` is a full grid and `indices` has all lookups. -/
structure Consistent (op : SlsOperation) : Prop where
  lengths : op.lengths.length = op.tablesSizes.length * op.minibatchSize
  indices : op.indices.length = op.lengths.sum

/-- A chunk of a table of the operation. -/
structure ChunkIn (op : SlsOperation) (td : TableData) : Prop where
  table : td.tableId < op.tablesSizes.length
  batches : op.ChunkOk td

end SlsOperation

/-- A slice of an array, read element by element. -/
theorem take_drop_eq_map {l : List Nat} {s n : Nat} (h : s + n ≤ l.length) :
    (l.drop s).take n = (List.range n).map fun k => l.getD (s + k) 0 := by
  refine List.ext_getElem (by simp; omega) fun k h1 h2 => ?_
  simp only [List.length_map, List.length_range] at h2
  simp only [List.getElem_take, List.getElem_drop, List.getElem_map, List.getElem_range]
  rw [List.getD_eq_getElem?_getD, List.getElem?_eq_getElem (by omega), Option.getD_some]

namespace SlsOperation

variable {op : SlsOperation} {t : Topology} {td : TableData}

theorem ChunkIn.grid (h : op.ChunkIn td) (hop : op.Consistent) :
    td.tableId * op.minibatchSize + td.batchOffset.getD 0 + td.tableBatchesChunk ≤ op.lengths.length := by
  have h1 : (td.tableId + 1) * op.minibatchSize ≤ op.tablesSizes.length * op.minibatchSize :=
    Nat.mul_le_mul_right _ h.table
  have h2 : td.batchOffset.getD 0 + td.tableBatchesChunk ≤ op.minibatchSize := h.batches
  rw [hop.lengths]
  rw [Nat.add_mul] at h1
  omega

/-- The lengths of a chunk are the lengths of its batches. -/
theorem ChunkIn.take_lengthPtr (h : op.ChunkIn td) (hop : op.Consistent) :
    (op.lengthPtr td).take td.tableBatchesChunk = td.keys.map op.lengthOf := by
  rw [lengthPtr, take_drop_eq_map (h.grid hop), TableData.keys, List.range'_eq_map_range, List.map_map,
    List.map_map]
  refine List.map_congr_left fun k _ => ?_
  simp only [Function.comp_apply, lengthOf, Nat.add_assoc]

theorem startOf_add_lengthOf_le (hop : op.Consistent) (key : Nat × Nat) :
    op.startOf key + op.lengthOf key ≤ op.indices.length := by
  rw [hop.indices]
  exact sum_take_add_getD_le _ _

/-- The indices before batch `b` of a chunk. -/
theorem ChunkIn.startOf_add (h : op.ChunkIn td) (hop : op.Consistent) {b : Nat} (hb : b ≤ td.tableBatchesChunk) :
    op.startOf (td.tableId, td.batchOffset.getD 0) + ((td.keys.map op.lengthOf).take b).sum
      = op.startOf (td.tableId, td.batchOffset.getD 0 + b) := by
  rw [← h.take_lengthPtr hop, List.take_take, Nat.min_eq_left hb]
  have hsplit := sum_take_add op.lengths (td.tableId * op.minibatchSize + td.batchOffset.getD 0) b
  rw [Nat.add_assoc] at hsplit
  exact hsplit.symm

/-- The instruction of one lookup. -/
def lookupIr (op : SlsOperation) (t : Topology) (objects : List MemoryObject) (computeUnit : Nat)
    (key : Nat × Nat) (j tableRowIdx : Nat) : InstructionIR :=
  TraceGeneratorCore.writeIr (op.bytesPerRowFull t) op.opType.code j tableRowIdx
    (((objects.find? (·.id == key.1)).map (·.offset computeUnit)).getD 0)

section Chunk

open TraceGeneratorCore

variable {objects : List MemoryObject} {computeUnit base : Nat}

/-- The instructions a chunk contributes. -/
def chunkIr (op : SlsOperation) (t : Topology) (objects : List MemoryObject) (computeUnit base : Nat)
    (td : TableData) : List InstructionIR :=
  (writeObjectTrace (op.bytesPerRowFull t)
    (((objects.find? (·.id == td.tableId)).map (·.offset computeUnit)).getD 0) (op.indexPtr td) base
    op.opType.code (op.lengthPtr td) td.tableBatchesChunk).1

/-- The instruction of a cell of the chunk's jagged array, in terms of the operation. -/
theorem cell_index (h : op.ChunkIn td) (hop : op.Consistent) (hsum : op.SumsFit) {b k : Nat}
    (hb : b < td.tableBatchesChunk) :
    (op.indexPtr td).getD (((td.keys.map op.lengthOf).take b).sum + k) 0
      = op.indices.getD (op.startOf (td.tableId, td.batchOffset.getD 0 + b) + k) 0 := by
  have hok : td.batchOffset.getD 0 + td.tableBatchesChunk ≤ op.minibatchSize := h.batches
  rw [indexPtr_eq hsum h.table (by omega), List.getD_eq_getElem?_getD, List.getElem?_drop, ← Nat.add_assoc,
    h.startOf_add hop (by omega), ← List.getD_eq_getElem?_getD]

/-- **The instructions of one batch of a chunk**, in the order of its lookups. -/
theorem filter_chunkIr (h : op.ChunkIn td) (hop : op.Consistent) (hsum : op.SumsFit)
    (hbase : base + td.tableBatchesChunk ≤ 2 ^ 32) (j : Nat) :
    (op.chunkIr t objects computeUnit base td).filter (·.outputIndex == base + j)
      = match td.keys[j]? with
        | some key => (op.lookups key).map (op.lookupIr t objects computeUnit key (base + j))
        | none     => [] := by
  have hlen : ((op.lengthPtr td).take td.tableBatchesChunk) = td.keys.map op.lengthOf := h.take_lengthPtr hop
  -- output indices below 2^32 identify the batch
  have hfilter : (columnMajor (td.keys.map op.lengthOf)).filter
        ((fun ir : InstructionIR => ir.outputIndex == base + j) ∘ cellIr (op.bytesPerRowFull t)
          (((objects.find? (·.id == td.tableId)).map (·.offset computeUnit)).getD 0) (op.indexPtr td) base
          op.opType.code (td.keys.map op.lengthOf))
      = (columnMajor (td.keys.map op.lengthOf)).filter (·.1 == j) := by
    refine List.filter_congr fun c hc => ?_
    have hc1 : c.1 < td.tableBatchesChunk := by simpa [TableData.length_keys] using (mem_columnMajor hc).1
    simp only [Function.comp_apply, cellIr, writeIr, Nat.mod_eq_of_lt (show base + c.1 < 2 ^ 32 by omega)]
    rw [Bool.eq_iff_iff]
    simp
  rw [chunkIr, writeObjectTrace_eq, hlen, List.filter_map, hfilter, filter_columnMajor, List.map_map]
  by_cases hj : j < td.tableBatchesChunk
  · have hkey : td.keys[j]? = some (td.tableId, td.batchOffset.getD 0 + j) := by
      simp [TableData.keys, hj]
    have hgrid := h.grid hop
    have hlook : op.lookups (td.tableId, td.batchOffset.getD 0 + j) = (List.range (op.lengthOf
        (td.tableId, td.batchOffset.getD 0 + j))).map fun k =>
          op.indices.getD (op.startOf (td.tableId, td.batchOffset.getD 0 + j) + k) 0 :=
      take_drop_eq_map (startOf_add_lengthOf_le hop _)
    have hget : (td.keys.map op.lengthOf).getD j 0 = op.lengthOf (td.tableId, td.batchOffset.getD 0 + j) := by
      rw [List.getD_eq_getElem?_getD, List.getElem?_map, hkey]
      rfl
    rw [hkey, hget]
    simp only [hlook, List.map_map]
    refine List.map_congr_left fun k _ => ?_
    simp only [Function.comp_apply, cellIr, lookupIr, cell_index h hop hsum hj]
  · have hnone : td.keys[j]? = none := List.getElem?_eq_none (by rw [TableData.length_keys]; omega)
    have hget : (td.keys.map op.lengthOf).getD j 0 = 0 := by
      rw [List.getD_eq_getElem?_getD, List.getElem?_map, hnone]
      rfl
    rw [hnone, hget]
    rfl

/-- A chunk has one instruction per lookup. -/
theorem length_chunkIr :
    (op.chunkIr t objects computeUnit base td).length = (td.keys.map op.lengthOf).sum := by
  rw [chunkIr, writeObjectTrace_eq, List.length_map, length_columnMajor, lengthPtr, sum_take_drop, TableData.keys,
    List.map_map, ← List.map_add_range', List.map_map]
  rfl

theorem le_outputIndex_chunkIr (h : op.ChunkIn td) (hop : op.Consistent)
    (hbase : base + td.tableBatchesChunk ≤ 2 ^ 32) {ir : InstructionIR}
    (hir : ir ∈ op.chunkIr t objects computeUnit base td) : base ≤ ir.outputIndex := by
  rw [chunkIr, writeObjectTrace_eq, h.take_lengthPtr hop] at hir
  obtain ⟨c, hc, rfl⟩ := List.mem_map.mp hir
  have hc1 : c.1 < td.tableBatchesChunk := by simpa [TableData.length_keys] using (mem_columnMajor hc).1
  simp only [cellIr, writeIr, Nat.mod_eq_of_lt (show base + c.1 < 2 ^ 32 by omega)]
  omega

end Chunk

/-! ## The chunks of an execution -/

section Exec

open TraceGeneratorCore

variable {objects : List MemoryObject} {computeUnit : Nat}

theorem chunksIr_cons {tds : List TableData} {base : Nat} (h : base + td.tableBatchesChunk < 2 ^ 32) :
    op.chunksIr t objects computeUnit (td :: tds) base
      = op.chunkIr t objects computeUnit base td ++
        op.chunksIr t objects computeUnit tds (base + td.tableBatchesChunk) := by
  simp only [chunksIr, List.map_cons, TraceGeneratorCore.generateInstructions, Nat.mod_eq_of_lt h]
  rfl

theorem length_flatMap_keys_cons (td : TableData) (tds : List TableData) :
    ((td :: tds).flatMap TableData.keys).length = td.tableBatchesChunk + (tds.flatMap TableData.keys).length := by
  rw [List.flatMap_cons, List.length_append, TableData.length_keys]

theorem length_chunksIr (tds : List TableData) (base : Nat) :
    (op.chunksIr t objects computeUnit tds base).length = ((tds.flatMap TableData.keys).map op.lengthOf).sum := by
  induction tds generalizing base with
  | nil => rfl
  | cons td tds ih =>
      rw [List.flatMap_cons, List.map_append, List.sum_append, ← length_chunkIr, ← ih, ← List.length_append]
      rfl

/-- **An execution has one instruction per lookup** of its batches. -/
theorem length_execIr (exec : Execution) :
    (op.execIr t objects computeUnit exec).length = (exec.keys.map op.lengthOf).sum :=
  length_chunksIr exec.tablesData 0

variable (hop : op.Consistent)
include hop

theorem le_outputIndex_chunksIr {tds : List TableData} {base : Nat} (hin : ∀ td ∈ tds, op.ChunkIn td)
    (hbase : base + (tds.flatMap TableData.keys).length < 2 ^ 32) {ir : InstructionIR}
    (hir : ir ∈ op.chunksIr t objects computeUnit tds base) : base ≤ ir.outputIndex := by
  induction tds generalizing base with
  | nil => simp [chunksIr, TraceGeneratorCore.generateInstructions] at hir
  | cons td tds ih =>
      rw [length_flatMap_keys_cons] at hbase
      rw [chunksIr_cons (by omega)] at hir
      rcases List.mem_append.mp hir with hir | hir
      · exact le_outputIndex_chunkIr (hin td (by simp)) hop (by omega) hir
      · have := ih (fun x hx => hin x (by simp [hx])) (by omega) hir
        omega

/-- **The instructions of one batch of an execution.** Output index `base + j` belongs to the `j`-th batch:
    its instructions are its lookups, in order. -/
theorem filter_chunksIr (hsum : op.SumsFit) {tds : List TableData} {base : Nat}
    (hin : ∀ td ∈ tds, op.ChunkIn td) (hbase : base + (tds.flatMap TableData.keys).length < 2 ^ 32) (j : Nat) :
    (op.chunksIr t objects computeUnit tds base).filter (·.outputIndex == base + j)
      = match (tds.flatMap TableData.keys)[j]? with
        | some key => (op.lookups key).map (op.lookupIr t objects computeUnit key (base + j))
        | none     => [] := by
  induction tds generalizing base j with
  | nil => simp [chunksIr, TraceGeneratorCore.generateInstructions]
  | cons td tds ih =>
      have hin' : ∀ x ∈ tds, op.ChunkIn x := fun x hx => hin x (by simp [hx])
      rw [length_flatMap_keys_cons] at hbase
      rw [chunksIr_cons (by omega), List.filter_append,
        filter_chunkIr (hin td (by simp)) hop hsum (by omega), List.flatMap_cons]
      by_cases hj : j < td.tableBatchesChunk
      · -- a batch of this chunk: later chunks have larger output indices
        have hrest : (op.chunksIr t objects computeUnit tds (base + td.tableBatchesChunk)).filter
            (·.outputIndex == base + j) = [] := by
          rw [List.filter_eq_nil_iff]
          intro ir hir
          have := le_outputIndex_chunksIr hop hin' (by omega) hir
          simp only [beq_iff_eq]
          omega
        rw [hrest, List.append_nil, List.getElem?_append_left (by rw [TableData.length_keys]; exact hj)]
      · have hnone : td.keys[j]? = none := List.getElem?_eq_none (by rw [TableData.length_keys]; omega)
        have hnext := ih hin' (show base + td.tableBatchesChunk + _ < 2 ^ 32 by omega) (j - td.tableBatchesChunk)
        rw [show base + td.tableBatchesChunk + (j - td.tableBatchesChunk) = base + j by omega] at hnext
        rw [hnone, hnext, List.getElem?_append_right (by rw [TableData.length_keys]; omega), TableData.length_keys,
          List.nil_append]

end Exec

end SlsOperation

end Pnm.Sls

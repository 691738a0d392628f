import Pnm.Sls.ExecTrace

/-!
# `Sls.TraceOrder` — order and addresses of a trace

`Trace` gives the closed form of the loop over one chunk. This module says what that means for a whole
execution, without the loop's own vocabulary: its instructions are one list per chunk, one after the other,
and each list is a transposition of the chunk's ragged rows (`trace_transposed`).

It also settles when a row's address in the instruction stream is the mathematical one
(`rowAddresses_iff`): the product of row number and row size is taken in 32 bits, so exactly the tables whose
last row starts below 4 GiB are addressed without wrapping.
-/

namespace Pnm.Sls

open Pnm.Lib

namespace TraceGeneratorCore

/-! ## Transposition -/

/-- The offset `generate_instructions` finds for a table on a unit. -/
def tableOffset (objects : List MemoryObject) (computeUnit tableId : Nat) : Nat :=
  ((objects.find? (·.id == tableId)).map (·.offset computeUnit)).getD 0

/-- **A chunk in transposed order.** There is exactly one instruction per (batch, lookup) pair, first by
    lookup, then by batch; lookup `k` of batch `b` has the address of the `k`-th index of the batch and the
    output index `base + b`. -/
def Transposed (bytesPerRowFull offset type batches base : Nat) (length index : List Nat)
    (irs : List InstructionIR) : Prop :=
  ∃ cells : List (Nat × Nat),
    cells.Pairwise Before ∧
    (∀ c, c ∈ cells ↔ c.1 < batches ∧ c.2 < length.getD c.1 0) ∧
    irs = cells.map fun c =>
      { opcode := type
        outputIndex := base + c.1
        address := getPhysAddress bytesPerRowFull (index.getD ((length.take c.1).sum + c.2) 0) offset }

section Transpose

variable (bytesPerRowFull type computeUnit : Nat) (objects : List MemoryObject)

theorem getD_take {l : List Nat} {n b : Nat} (hb : b < n) : (l.take n).getD b 0 = l.getD b 0 := by
  rw [List.getD_eq_getElem?_getD, List.getElem?_take_of_lt hb, ← List.getD_eq_getElem?_getD]

/-- A row that has a cell is inside the array. -/
theorem lt_length_of_lt_getD {l : List Nat} {b k : Nat} (h : k < l.getD b 0) : b < l.length := by
  by_contra hb
  rw [List.getD_eq_getElem?_getD, List.getElem?_eq_none (by omega)] at h
  exact Nat.not_lt_zero k h

variable {bytesPerRowFull type} in
theorem writeObjectTrace_transposed {offset base batches : Nat} {length index : List Nat}
    (hbase : base + batches ≤ 2 ^ 32) :
    Transposed bytesPerRowFull offset type batches base length index
      (writeObjectTrace bytesPerRowFull offset index base type length batches).1 := by
  have hmem : ∀ c, c ∈ columnMajor (length.take batches) ↔ c.1 < batches ∧ c.2 < length.getD c.1 0 := by
    intro c
    rw [mem_columnMajor_iff, List.length_take]
    constructor
    · rintro ⟨hb, hk⟩
      have hlt : c.1 < batches := by omega
      rw [getD_take hlt] at hk
      exact ⟨hlt, hk⟩
    · rintro ⟨hb, hk⟩
      have := lt_length_of_lt_getD hk
      rw [getD_take hb]
      exact ⟨by omega, hk⟩
  refine ⟨columnMajor (length.take batches), pairwise_columnMajor _, hmem, ?_⟩
  rw [writeObjectTrace_eq]
  apply List.map_congr_left
  intro c hc
  have hb := ((hmem c).mp hc).1
  unfold cellIr writeIr
  rw [List.take_take, Nat.min_eq_left hb.le, Nat.mod_eq_of_lt (by omega)]

/-- The batches before a chunk and its own are among all batches. -/
theorem sum_take_add_chunk_le {tds : List TableData} {i : Nat} {td : TableData} (h : tds[i]? = some td) :
    ((tds.take i).map (·.tableBatchesChunk)).sum + td.tableBatchesChunk
      ≤ (tds.map (·.tableBatchesChunk)).sum := by
  have hsplit := List.sum_take_add_sum_drop (tds.map (·.tableBatchesChunk)) i
  have hget : (tds.map (·.tableBatchesChunk))[i]? = some td.tableBatchesChunk := by
    rw [List.getElem?_map, h]
    rfl
  obtain ⟨hlt, heq⟩ := List.getElem?_eq_some_iff.mp hget
  rw [List.drop_eq_getElem_cons hlt, List.sum_cons, heq] at hsplit
  rw [List.map_take]
  omega

/-- The instructions of an execution are those of its chunks, one after the other. -/
theorem generateInstructions_parts {tds : List TableData} {lengths indices : List (List Nat)} {base : Nat}
    (hlengths : lengths.length = tds.length) (hindices : indices.length = tds.length)
    (hsum : base + (tds.map (·.tableBatchesChunk)).sum < 2 ^ 32) :
    ∃ parts : List (List InstructionIR),
      generateInstructions bytesPerRowFull type computeUnit objects tds lengths indices base = parts.flatten ∧
      parts.length = tds.length ∧
      ∀ i td length index, tds[i]? = some td → lengths[i]? = some length → indices[i]? = some index →
        parts[i]? = some (writeObjectTrace bytesPerRowFull (tableOffset objects computeUnit td.tableId) index
          (base + ((tds.take i).map (·.tableBatchesChunk)).sum) type length td.tableBatchesChunk).1 := by
  induction tds generalizing lengths indices base with
  | nil =>
      refine ⟨[], ?_, rfl, fun i td _ _ h => by simp at h⟩
      simp [generateInstructions]
  | cons td tds ih =>
      obtain ⟨length, lengths, rfl⟩ := List.exists_cons_of_length_eq_add_one hlengths
      obtain ⟨index, indices, rfl⟩ := List.exists_cons_of_length_eq_add_one hindices
      rw [List.map_cons, List.sum_cons] at hsum
      have hnext : (base + td.tableBatchesChunk) % 2 ^ 32 = base + td.tableBatchesChunk :=
        Nat.mod_eq_of_lt (by omega)
      obtain ⟨parts, hflat, hlen, hparts⟩ := ih (Nat.succ.inj hlengths) (Nat.succ.inj hindices)
        (show base + td.tableBatchesChunk + _ < 2 ^ 32 by omega)
      refine ⟨(writeObjectTrace bytesPerRowFull (tableOffset objects computeUnit td.tableId) index base type length
        td.tableBatchesChunk).1 :: parts, ?_, by simp [hlen], ?_⟩
      · rw [generateInstructions, hnext, hflat]
        rfl
      · intro i td' length' index' htd hlength hindex
        cases i with
        | zero =>
            obtain rfl : td = td' := by simpa using htd
            obtain rfl : length = length' := by simpa using hlength
            obtain rfl : index = index' := by simpa using hindex
            rfl
        | succ i =>
            rw [List.getElem?_cons_succ] at htd hlength hindex ⊢
            rw [hparts i td' length' index' htd hlength hindex, List.take_succ_cons, List.map_cons, List.sum_cons,
              Nat.add_assoc]

end Transpose

end TraceGeneratorCore

open TraceGeneratorCore in
/-- **Trace order is a faithful transposition.** The instructions of an execution are the concatenation of one
    list per chunk. The list of a chunk is its ragged array of lookups in transposed order, with the output
    indices counted on from the batches of the chunks before it; the loop over a chunk ends and returns the
    number of its lookups. -/
theorem trace_transposed (bytesPerRowFull type computeUnit : Nat) (objects : List MemoryObject)
    (tds : List TableData) (lengths indices : List (List Nat)) (hlengths : lengths.length = tds.length)
    (hindices : indices.length = tds.length) (hsum : (tds.map (·.tableBatchesChunk)).sum < 2 ^ 32) :
    ∃ parts : List (List InstructionIR),
      TraceGeneratorCore.generateInstructions bytesPerRowFull type computeUnit objects tds lengths indices 0
        = parts.flatten ∧
      parts.length = tds.length ∧
      ∀ i td length index, tds[i]? = some td → lengths[i]? = some length → indices[i]? = some index →
        ∃ irs returned, parts[i]? = some irs ∧
          writeObjectTrace bytesPerRowFull (tableOffset objects computeUnit td.tableId) index
            ((tds.take i).map (·.tableBatchesChunk)).sum type length td.tableBatchesChunk = (irs, returned) ∧
          Transposed bytesPerRowFull (tableOffset objects computeUnit td.tableId) type td.tableBatchesChunk
            ((tds.take i).map (·.tableBatchesChunk)).sum length index irs ∧
          returned = (length.take td.tableBatchesChunk).sum := by
  obtain ⟨parts, hflat, hlen, hparts⟩ :=
    generateInstructions_parts bytesPerRowFull type computeUnit objects hlengths hindices
      (show 0 + (tds.map (·.tableBatchesChunk)).sum < 2 ^ 32 by omega)
  refine ⟨parts, hflat, hlen, ?_⟩
  intro i td length index htd hlength hindex
  have hpart := hparts i td length index htd hlength hindex
  rw [Nat.zero_add] at hpart
  refine ⟨_, _, hpart, rfl, writeObjectTrace_transposed ?_, ?_⟩
  · exact (sum_take_add_chunk_le htd).trans hsum.le
  · exact congrArg Prod.snd (writeObjectTrace_eq length td.tableBatchesChunk)

open TraceGeneratorCore in
/-- Two chunks: batches of 2 and 1 lookups, then one batch without and one with a lookup. The second lookup of the first
    batch comes after the first lookup of the second. -/
theorem trace_transposed_two_chunks :
    ∃ first second, generateInstructions 64 0 0 [⟨0, 640, fun _ => 0⟩, ⟨1, 640, fun _ => 1024⟩]
        [⟨0, 2, some 0⟩, ⟨1, 2, some 0⟩] [[2, 1], [0, 1]] [[5, 6, 7], [3]] 0 = first ++ second ∧
      first = [⟨0, 0, 64 * 5⟩, ⟨0, 1, 64 * 7⟩, ⟨0, 0, 64 * 6⟩] ∧ Transposed 64 0 0 2 0 [2, 1] [5, 6, 7] first ∧
      second = [⟨0, 3, 1024 + 64 * 3⟩] ∧ Transposed 64 1024 0 2 2 [0, 1] [3] second := by
  obtain ⟨parts, hflat, hlen, hparts⟩ := trace_transposed 64 0 0 [⟨0, 640, fun _ => 0⟩, ⟨1, 640, fun _ => 1024⟩]
    [⟨0, 2, some 0⟩, ⟨1, 2, some 0⟩] [[2, 1], [0, 1]] [[5, 6, 7], [3]] rfl rfl (by decide)
  obtain ⟨first, second, rfl⟩ := List.length_eq_two.mp hlen
  obtain ⟨_, _, hfirst, htrace, htransposed, -⟩ := hparts 0 _ _ _ rfl rfl rfl
  obtain ⟨_, _, hsecond, htrace', htransposed', -⟩ := hparts 1 _ _ _ rfl rfl rfl
  cases hfirst
  cases hsecond
  refine ⟨first, second, hflat.trans (by simp), ?_, htransposed, ?_, htransposed'⟩
  · exact (congrArg Prod.fst htrace).symm.trans (by decide +kernel)
  · exact (congrArg Prod.fst htrace').symm.trans (by decide +kernel)

/-! ## Row addresses -/

/-- The bytes a row takes on the device: its features and, in tagged operations, the tag slot. -/
def SlsOperation.rowBytes (op : SlsOperation) (t : Topology) : Nat :=
  op.sparseFeatureSize * t.dataSize + if op.isTagged then t.alignedTagSize else 0

/-- **Exact row addresses.** The instruction of a row has the address of the row in the table's region
    `[offset, offset + rows * bytes)`; different rows have different addresses. -/
structure RowAddressesExact (bytesPerRowFull bytes rows offset : Nat) : Prop where
  exact : ∀ row < rows, ∀ opcode outputIdx,
    (TraceGeneratorCore.writeIr bytesPerRowFull opcode outputIdx row offset).address = offset + row * bytes
  distinct : ∀ row < rows, ∀ row' < rows, ∀ opcode outputIdx opcode' outputIdx',
    (TraceGeneratorCore.writeIr bytesPerRowFull opcode outputIdx row offset).address
      = (TraceGeneratorCore.writeIr bytesPerRowFull opcode' outputIdx' row' offset).address → row = row'
  inside : ∀ row < rows, ∀ opcode outputIdx,
    let address := (TraceGeneratorCore.writeIr bytesPerRowFull opcode outputIdx row offset).address
    offset ≤ address ∧ address + bytes ≤ offset + rows * bytes

/-- Without wrapping everything else follows. -/
theorem RowAddressesExact.of_exact {bytesPerRowFull bytes rows offset : Nat} (hpos : 0 < bytes)
    (h : ∀ row < rows, TraceGeneratorCore.getPhysAddress bytesPerRowFull row offset = offset + row * bytes) :
    RowAddressesExact bytesPerRowFull bytes rows offset := by
  constructor
  · intro row hrow _ _
    exact h row hrow
  · intro row hrow row' hrow' _ _ _ _ heq
    have hsum : offset + row * bytes = offset + row' * bytes := (h row hrow).symm.trans (heq.trans (h row' hrow'))
    exact Nat.eq_of_mul_eq_mul_right hpos (Nat.add_left_cancel hsum)
  · intro row hrow _ _
    have hnext : (row + 1) * bytes ≤ rows * bytes := Nat.mul_le_mul_right bytes hrow
    rw [Nat.add_mul, Nat.one_mul] at hnext
    show offset ≤ TraceGeneratorCore.getPhysAddress _ _ _ ∧ TraceGeneratorCore.getPhysAddress _ _ _ + _ ≤ _
    rw [h row hrow]
    omega

/-- **When row addresses do not wrap.** For every table that fits the memory of a rank, the addresses put into
    the instruction stream are exact if and only if the last row starts below 4 GiB from the table's offset. -/
theorem rowAddresses_iff (t : Topology) (op : SlsOperation) (rows offset rankMemory : Nat) (hdata : t.dataSize = 4)
    (htag : t.alignedTagSize = 64)
    (hfeature : op.sparseFeatureSize = 16 ∨ op.sparseFeatureSize = 32 ∨ op.sparseFeatureSize = 64)
    (hrows : rows ≤ 2 ^ 32 - 1) (hfits : offset + rows * op.rowBytes t ≤ rankMemory) (hmem : rankMemory ≤ 2 ^ 64) :
    RowAddressesExact (op.bytesPerRowFull t) (op.rowBytes t) rows offset ↔ (rows - 1) * op.rowBytes t < 2 ^ 32 := by
  have hbytes : 0 < op.rowBytes t ∧ op.rowBytes t < 2 ^ 32 := by
    unfold SlsOperation.rowBytes
    rw [hdata, htag]
    split <;> omega
  have hfull : op.bytesPerRowFull t = op.rowBytes t := Nat.mod_eq_of_lt hbytes.2
  rw [hfull]
  set b := op.rowBytes t
  constructor
  · intro h
    by_cases hzero : rows = 0
    · simp [hzero]
    · have hlast := h.exact (rows - 1) (by omega) 0 0
      have hend : (rows - 1) * b + b ≤ rows * b := by
        rw [← Nat.succ_mul, Nat.succ_eq_add_one, Nat.sub_add_cancel (by omega)]
      have hlt : (rows - 1) * b % 2 ^ 32 < 2 ^ 32 := Nat.mod_lt _ (by decide)
      have hle : (rows - 1) * b % 2 ^ 32 ≤ (rows - 1) * b := Nat.mod_le _ _
      unfold TraceGeneratorCore.writeIr TraceGeneratorCore.getPhysAddress at hlast
      dsimp only at hlast
      rw [Nat.mod_eq_of_lt (by omega)] at hlast
      omega
  · intro h
    apply RowAddressesExact.of_exact hbytes.1
    intro row hrow
    have hle : row * b ≤ (rows - 1) * b := Nat.mul_le_mul_right b (by omega)
    have hend : row * b + b ≤ rows * b := by
      rw [← Nat.succ_mul]
      exact Nat.mul_le_mul_right b hrow
    unfold TraceGeneratorCore.getPhysAddress
    rw [Nat.mod_eq_of_lt (by omega), Nat.mod_eq_of_lt (by omega)]

/-- One table of 2^26 + 1 rows of 64 bytes, and a batch that looks up its first and its last row. -/
def largeTable : SlsOperation where
  opType := .float
  sparseFeatureSize := 16
  tablesSizes := [2 ^ 26 + 1]
  minibatchSize := 1
  lengths := [2]
  indices := [0, 2 ^ 26]

/-- A table of half that size is addressed exactly. -/
theorem rowAddresses_iff_small :
    RowAddressesExact (largeTable.bytesPerRowFull .cxl) (largeTable.rowBytes .cxl) (2 ^ 25) 4096 :=
  (rowAddresses_iff .cxl largeTable (2 ^ 25) 4096 (2 ^ 34) rfl rfl (by decide) (by decide) (by decide)
    (by decide)).mpr (by decide)

/-- **The last row of the large table gets the address of its first row**, though the table fits a rank of
    16 GiB. -/
theorem rowAddress_wraps :
    4096 + (2 ^ 26 + 1) * largeTable.rowBytes .cxl ≤ 2 ^ 34 ∧
      (TraceGeneratorCore.writeIr (largeTable.bytesPerRowFull .cxl) 0 0 (2 ^ 26) 4096).address = 4096 ∧
      (TraceGeneratorCore.writeIr (largeTable.bytesPerRowFull .cxl) 0 0 0 4096).address = 4096 ∧
      4096 + 2 ^ 26 * largeTable.rowBytes .cxl = 4096 + 2 ^ 32 := by
  decide

end Pnm.Sls

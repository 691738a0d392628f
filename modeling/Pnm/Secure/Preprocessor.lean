import Pnm.Secure.Engines

/-!
# `Secure.Preprocessor` — encrypting the tables

The model of `DLRMPreprocessor::load_impl`. The source is read in batches of as many rows as a buffer of 8192 bytes
holds, each row is encrypted under the running offset, and written with its tag behind it. The writers differ in
the room they give a tag.

Batches and tables do not show in what a load writes: a load that ends is the loop over all rows of the source, each
taken once and in order (`loadImpl_eq_rows`). Row `r` is encrypted under the address `4 * (r * width)` and fills
`stride` elements behind the rows before it (`rowImage`); `RowsWritten` is what holds after `n` rows, and `Progress` the
part of it that a reader of the output needs.
-/

namespace Pnm.Secure

open Pnm.Lib

/-- The writers. -/
inductive Writer where
  | trivialMemory
  | memory
deriving DecidableEq

/-- `io_traits<Writer>::meta_size`, in elements. -/
def Writer.metaWords : Writer → Nat
  | trivialMemory => 4
  | memory        => 16

/-- A tag and its padding. -/
theorem Writer.metaWords_eq (w : Writer) : 4 + (w.metaWords - 4) = w.metaWords := by cases w <;> rfl

/-- What a preprocessor is made from, with the engines it makes. -/
structure Preprocessor where
  entries : List Nat
  sparseFeatureSize : Nat
  src : Words
  writer : Writer
  includeTag : Bool
  encryption : EncryptionEngine
  verification : VerificationEngine

/-- The variables of `load_impl`: the reader, the output with its writer, the running offset and the offsets of the
    tables. -/
structure LoadState where
  readPos : Nat
  out : Words
  outPos : Nat
  sliceOffset : BitVec 64
  tableOffsets : List (BitVec 64)

/-- `Writer::write`. -/
def LoadState.write (st : LoadState) (n : Nat) (x : Words) : LoadState :=
  { st with out := splice st.out st.outPos n x, outPos := st.outPos + n }

/-- The reader and the offsets of the tables, which the work on a row does not touch. -/
def LoadState.withReader (st : LoadState) (readPos : Nat) (tableOffsets : List (BitVec 64)) : LoadState :=
  { st with readPos := readPos, tableOffsets := tableOffsets }

namespace Preprocessor

variable (p : Preprocessor)

/-- `io_traits<Writer>::write_meta`: the tag and its padding. -/
def writeMeta (tag : BitVec 128) (st : LoadState) : LoadState :=
  (st.write 4 (wordOf tag)).write (p.writer.metaWords - 4) fun _ => 0

/-- The body of the loop over the rows of a batch. -/
def loadRow (row : Words) (st : LoadState) : Except Fault LoadState := do
  let (encrypted, size) ← p.encryption.encrypt row p.sparseFeatureSize st.sliceOffset
  let written := st.write p.sparseFeatureSize encrypted
  let tagged :=
    if p.includeTag then p.writeMeta (p.verification.generateMac row p.sparseFeatureSize st.sliceOffset) written
    else written
  .ok { tagged with sliceOffset := st.sliceOffset + size }

/-- One turn of the loop over a table: read a batch and take its rows. -/
def loadBatch (rows : Nat) (st : LoadState) : Except Fault LoadState :=
  let slice : Words := fun x => p.src (st.readPos + x)
  (List.range rows).foldlM (fun st i => p.loadRow (fun e => slice (i * p.sparseFeatureSize + e)) st)
    { st with readPos := st.readPos + rows * p.sparseFeatureSize }

/-- The loop over a table. -/
def loadTable (rowsPerBatch : Nat) : Nat → Nat → LoadState → Except Fault LoadState
  | 0, _, _ => .error .outOfFuel
  | fuel + 1, rowCount, st =>
      if rowCount = 0 then .ok st
      else do
        let rowsToRead := min rowCount rowsPerBatch
        let st ← p.loadBatch rowsToRead st
        loadTable rowsPerBatch fuel (rowCount - rowsToRead) st

/-- `rows_per_batch`. -/
def rowsPerBatch : Nat := 8192 / (4 * p.sparseFeatureSize)

/-- `load_impl`, into a buffer with the given contents; the bound is on the turns of each table's loop. -/
def loadImpl (fuel : Nat) (out : Words) : Except Fault LoadState :=
  if p.sparseFeatureSize = 0 then .error .trap
  else
    p.entries.foldlM
      (fun st rowCount => p.loadTable p.rowsPerBatch fuel rowCount
        { st with tableOffsets := st.tableOffsets ++ [st.sliceOffset] })
      { readPos := 0, out := out, outPos := 0, sliceOffset := 0, tableOffsets := [] }

/-! ## One row -/

/-- The elements from one row of the output to the next. -/
def stride : Nat := p.sparseFeatureSize + if p.includeTag then p.writer.metaWords else 0

/-- The address a row is encrypted under. -/
def rowAddress (r : Nat) : BitVec 64 := BitVec.ofNat 64 (4 * (r * p.sparseFeatureSize))

/-- Row `r` of the source. -/
def srcRow (r : Nat) : Words := fun e => p.src (r * p.sparseFeatureSize + e)

/-- What a row of the output holds: the row encrypted under its address, then its tag, then zeros. -/
def rowImage (address : BitVec 64) (row : Words) : Words := fun e =>
  if e < p.sparseFeatureSize then row e - p.encryption.padWord address e
  else if e < p.sparseFeatureSize + 4 then
    wordOf (p.verification.generateMac row p.sparseFeatureSize address) (e - p.sparseFeatureSize)
  else 0

/-- What the work on a row leaves. -/
def rowStep (st : LoadState) (row : Words) : LoadState :=
  { st with
    out := splice st.out st.outPos p.stride (p.rowImage st.sliceOffset row)
    outPos := st.outPos + p.stride
    sliceOffset := st.sliceOffset + BitVec.ofNat 64 (16 * (p.sparseFeatureSize / 4)) }

/-- The state a load starts in. -/
def start (out : Words) : LoadState :=
  { readPos := 0, out := out, outPos := 0, sliceOffset := 0, tableOffsets := [] }

/-- The rows from `n` on, one after another. -/
def takeRows (n count : Nat) (st : LoadState) : LoadState :=
  (List.range' n count).foldl (fun st r => p.rowStep st (p.srcRow r)) st

variable {p}

/-- The three writes for a row with a tag fill one row of the output. -/
theorem splice_rowImage (m : Words) (base : Nat) (address : BitVec 64) (row : Words) :
    splice (splice (splice m base p.sparseFeatureSize fun e => row e - p.encryption.padWord address e)
        (base + p.sparseFeatureSize) 4 (wordOf (p.verification.generateMac row p.sparseFeatureSize address)))
        (base + p.sparseFeatureSize + 4) (p.writer.metaWords - 4) (fun _ => 0)
      = splice m base (p.sparseFeatureSize + p.writer.metaWords) (p.rowImage address row) := by
  rw [splice_splice, splice_splice, p.writer.metaWords_eq]
  apply splice_congr
  intro e _
  unfold rowImage
  by_cases hdata : e < p.sparseFeatureSize
  · rw [if_pos hdata, if_pos hdata]
  · rw [if_neg hdata, if_neg hdata]
    by_cases htag : e < p.sparseFeatureSize + 4
    · rw [if_pos htag, if_pos (by omega)]
    · rw [if_neg htag, if_neg (by omega)]

theorem writeMeta_write (st : LoadState) (address : BitVec 64) (row : Words) :
    p.writeMeta (p.verification.generateMac row p.sparseFeatureSize address)
        (st.write p.sparseFeatureSize fun e => row e - p.encryption.padWord address e)
      = { st with
          out := splice st.out st.outPos (p.sparseFeatureSize + p.writer.metaWords) (p.rowImage address row)
          outPos := st.outPos + (p.sparseFeatureSize + p.writer.metaWords) } := by
  have hpos : st.outPos + p.sparseFeatureSize + 4 + (p.writer.metaWords - 4)
      = st.outPos + (p.sparseFeatureSize + p.writer.metaWords) := by
    rw [Nat.add_assoc, p.writer.metaWords_eq, Nat.add_assoc]
  rw [← splice_rowImage, ← hpos]
  rfl

theorem write_row (st : LoadState) (address : BitVec 64) (row : Words) :
    (st.write p.sparseFeatureSize fun e => row e - p.encryption.padWord address e)
      = { st with
          out := splice st.out st.outPos p.sparseFeatureSize (p.rowImage address row)
          outPos := st.outPos + p.sparseFeatureSize } := by
  have hout : splice st.out st.outPos p.sparseFeatureSize (fun e => row e - p.encryption.padWord address e)
      = splice st.out st.outPos p.sparseFeatureSize (p.rowImage address row) :=
    splice_congr fun e he => (if_pos he).symm
  rw [← hout]
  rfl

/-- **One row**: it is written with its tag behind the rows before it. -/
theorem loadRow_eq (hw : p.sparseFeatureSize % 4 = 0) (row : Words) (st : LoadState) :
    p.loadRow row st = .ok (p.rowStep st row) := by
  rw [loadRow, EncryptionEngine.encrypt, if_pos hw]
  unfold rowStep stride
  apply congrArg Except.ok
  by_cases htag : p.includeTag = true
  · simp only [if_pos htag, writeMeta_write]
  · simp only [if_neg htag, write_row, Nat.add_zero]

/-! ## Rows, batches and tables -/

theorem rowStep_withReader (st : LoadState) (row : Words) (readPos : Nat) (tables : List (BitVec 64)) :
    p.rowStep (st.withReader readPos tables) row = (p.rowStep st row).withReader readPos tables := rfl

theorem takeRows_withReader (n count : Nat) (st : LoadState) (readPos : Nat) (tables : List (BitVec 64)) :
    p.takeRows n count (st.withReader readPos tables) = (p.takeRows n count st).withReader readPos tables := by
  unfold takeRows
  induction List.range' n count generalizing st with
  | nil => rfl
  | cons r rows ih =>
      rw [List.foldl_cons, List.foldl_cons, rowStep_withReader]
      exact ih _

/-- Rows and then the rows behind them. -/
theorem takeRows_add (n a b : Nat) (st : LoadState) :
    p.takeRows n (a + b) st = p.takeRows (n + a) b (p.takeRows n a st) := by
  unfold takeRows
  rw [← List.range'_append_1, List.foldl_append]

/-- **One batch** takes its rows. -/
theorem loadBatch_eq (hw : p.sparseFeatureSize % 4 = 0) (rows : Nat) {st : LoadState} {n : Nat}
    (hread : st.readPos = n * p.sparseFeatureSize) :
    p.loadBatch rows st
      = .ok ((p.takeRows n rows st).withReader ((n + rows) * p.sparseFeatureSize) st.tableOffsets) := by
  have hslice : ∀ i, (fun e => p.src (st.readPos + (i * p.sparseFeatureSize + e))) = p.srcRow (n + i) := by
    intro i
    funext e
    rw [srcRow, hread, Nat.add_mul, Nat.add_assoc]
  have hend : st.readPos + rows * p.sparseFeatureSize = (n + rows) * p.sparseFeatureSize := by
    rw [hread, Nat.add_mul]
  rw [← takeRows_withReader]
  unfold loadBatch takeRows
  simp only [hslice, hend]
  rw [foldlM_eq_ok fun s i => loadRow_eq hw (p.srcRow (n + i)) s, List.range'_eq_map_range, List.foldl_map]
  rfl

/-- **One table** takes its rows, if a batch has room for a row. -/
theorem loadTable_eq (hw : p.sparseFeatureSize % 4 = 0) {rowsPerBatch fuel rowCount : Nat} (hfuel : rowCount < fuel)
    (hroom : rowCount = 0 ∨ 0 < rowsPerBatch) {st : LoadState} {n : Nat}
    (hread : st.readPos = n * p.sparseFeatureSize) :
    p.loadTable rowsPerBatch fuel rowCount st
      = .ok ((p.takeRows n rowCount st).withReader ((n + rowCount) * p.sparseFeatureSize) st.tableOffsets) := by
  induction fuel generalizing rowCount st n with
  | zero => omega
  | succ fuel ih =>
      rw [loadTable]
      split
      · rename_i hnone
        subst hnone
        rw [Nat.add_zero, ← hread]
        rfl
      · have hrows : min rowCount rowsPerBatch + (rowCount - min rowCount rowsPerBatch) = rowCount := by omega
        refine bind_eq_ok.mpr ⟨_, loadBatch_eq hw (min rowCount rowsPerBatch) hread, ?_⟩
        rw [ih (show rowCount - min rowCount rowsPerBatch < fuel by omega) (by omega) rfl, takeRows_withReader,
          ← takeRows_add, Nat.add_assoc, hrows]
        rfl

theorem outPos_takeRows (n count : Nat) (st : LoadState) :
    (p.takeRows n count st).outPos = st.outPos + count * p.stride := by
  induction count with
  | zero => rw [Nat.zero_mul, Nat.add_zero]; rfl
  | succ count ih =>
      rw [takeRows_add, Nat.succ_mul, ← Nat.add_assoc, ← ih]
      rfl

theorem rowAddress_add (r n : Nat) :
    p.rowAddress r + BitVec.ofNat 64 (4 * (n * p.sparseFeatureSize)) = p.rowAddress (r + n) := by
  rw [rowAddress, rowAddress, ← BitVec.ofNat_add, Nat.add_mul, Nat.mul_add]

/-- The running offset is the address of the next row. -/
theorem sliceOffset_takeRows (hw : p.sparseFeatureSize % 4 = 0) (n count : Nat) {st : LoadState}
    (h : st.sliceOffset = p.rowAddress n) : (p.takeRows n count st).sliceOffset = p.rowAddress (n + count) := by
  have hsize : 16 * (p.sparseFeatureSize / 4) = 4 * (1 * p.sparseFeatureSize) := by omega
  induction count with
  | zero => exact h
  | succ count ih =>
      rw [takeRows_add, ← Nat.add_assoc, ← rowAddress_add, ← ih, ← hsize]
      rfl

/-- **All tables** take the rows of the source, and the offsets list where each of them starts. -/
theorem foldlM_loadTable_eq (hw : p.sparseFeatureSize % 4 = 0) {rowsPerBatch fuel : Nat} {entries : List Nat}
    (hfuel : ∀ rowCount ∈ entries, rowCount < fuel) (hroom : ∀ rowCount ∈ entries, rowCount = 0 ∨ 0 < rowsPerBatch)
    {st : LoadState} {n : Nat} (hread : st.readPos = n * p.sparseFeatureSize)
    (hoffset : st.sliceOffset = p.rowAddress n) :
    entries.foldlM (fun st rowCount => p.loadTable rowsPerBatch fuel rowCount
        { st with tableOffsets := st.tableOffsets ++ [st.sliceOffset] }) st
      = .ok ((p.takeRows n entries.sum st).withReader ((n + entries.sum) * p.sparseFeatureSize)
        (st.tableOffsets ++ (List.range entries.length).map fun t => p.rowAddress (n + (entries.take t).sum))) := by
  induction entries generalizing st n with
  | nil =>
      rw [List.sum_nil, Nat.add_zero, ← hread, List.length_nil, List.range_zero, List.map_nil, List.append_nil]
      rfl
  | cons rowCount entries ih =>
      have hfirst := loadTable_eq hw (hfuel rowCount (by simp)) (hroom rowCount (by simp))
        (show (st.withReader st.readPos (st.tableOffsets ++ [st.sliceOffset])).readPos = _ from hread)
      rw [takeRows_withReader] at hfirst
      have hrest := ih (fun c hc => hfuel c (by simp [hc])) (fun c hc => hroom c (by simp [hc]))
        (show ((p.takeRows n rowCount st).withReader ((n + rowCount) * p.sparseFeatureSize)
          (st.tableOffsets ++ [st.sliceOffset])).readPos = _ from rfl) (sliceOffset_takeRows hw n rowCount hoffset)
      rw [takeRows_withReader, ← takeRows_add, Nat.add_assoc, ← List.sum_cons] at hrest
      rw [List.foldlM_cons]
      refine bind_eq_ok.mpr ⟨_, hfirst, hrest.trans ?_⟩
      -- the offset of this table stands in front of those of the others
      have hoffsets : st.tableOffsets ++ (List.range (rowCount :: entries).length).map
            (fun t => p.rowAddress (n + ((rowCount :: entries).take t).sum))
          = st.tableOffsets ++ [st.sliceOffset] ++ (List.range entries.length).map
            fun t => p.rowAddress (n + rowCount + (entries.take t).sum) := by
        rw [List.length_cons, List.range_succ_eq_map, List.map_cons, List.map_map, hoffset]
        simp [Function.comp_def, Nat.add_assoc]
      rw [hoffsets]
      rfl

/-! ## What a load leaves -/

variable (p)

/-- Row `r` is in the output: encrypted, and with its tag. -/
structure RowStored (out : Words) (r : Nat) : Prop where
  data : ∀ e < p.sparseFeatureSize, out (r * p.stride + e) = p.srcRow r e - p.encryption.padWord (p.rowAddress r) e
  tag : p.includeTag = true → blockAt out (r * p.stride + p.sparseFeatureSize)
    = p.verification.generateMac (p.srcRow r) p.sparseFeatureSize (p.rowAddress r)

/-- The first `n` rows are in the output, and the writer and the offset are behind them. -/
structure Progress (st : LoadState) (n : Nat) : Prop where
  outPos_eq : st.outPos = n * p.stride
  offset_eq : st.sliceOffset = p.rowAddress n
  stored : ∀ r < n, p.RowStored st.out r

/-- The first row of a table. -/
def tableBase (t : Nat) : Nat := (p.entries.take t).sum

variable {p}

/-- **The rows of a load**, after `n` of them: each fills its part of the output, and nothing behind them is written. -/
structure RowsWritten (p : Preprocessor) (out : Words) (st : LoadState) (n : Nat) : Prop where
  outPos_eq : st.outPos = n * p.stride
  offset_eq : st.sliceOffset = p.rowAddress n
  row_eq : ∀ r < n, ∀ e < p.stride, st.out (r * p.stride + e) = p.rowImage (p.rowAddress r) (p.srcRow r) e
  behind : ∀ x, n * p.stride ≤ x → st.out x = out x

theorem rowsWritten_takeRows (hw : p.sparseFeatureSize % 4 = 0) (out : Words) (n : Nat) :
    p.RowsWritten out (p.takeRows 0 n (start out)) n := by
  have hoffset : ∀ n, (p.takeRows 0 n (start out)).sliceOffset = p.rowAddress n := by
    intro n
    rw [sliceOffset_takeRows hw 0 n (by simp [start, rowAddress]), Nat.zero_add]
  have hpos : ∀ n, (p.takeRows 0 n (start out)).outPos = n * p.stride := by
    intro n
    rw [outPos_takeRows]
    exact Nat.zero_add _
  induction n with
  | zero => exact ⟨hpos 0, hoffset 0, fun r hr => absurd hr (Nat.not_lt_zero r), fun _ _ => rfl⟩
  | succ n ih =>
      have hout : (p.takeRows 0 (n + 1) (start out)).out = splice (p.takeRows 0 n (start out)).out (n * p.stride)
          p.stride (p.rowImage (p.rowAddress n) (p.srcRow n)) := by
        rw [takeRows_add, Nat.zero_add, ← hpos n, ← hoffset n]
        rfl
      refine ⟨hpos (n + 1), hoffset (n + 1), fun r hr e he => ?_, fun x hx => ?_⟩
      · rw [hout]
        rcases Nat.lt_succ_iff_lt_or_eq.mp hr with hlt | rfl
        · rw [splice_out (.inl (row_add_lt hlt he)), ih.row_eq r hlt e he]
        · exact splice_add he
      · rw [Nat.succ_mul] at hx
        rw [hout, splice_out (.inr hx), ih.behind x (by omega)]

/-- **A load is the loop over all rows of the source**, each taken once and in order. -/
theorem loadImpl_eq_rows (hpos : 0 < p.sparseFeatureSize) (hw : p.sparseFeatureSize % 4 = 0)
    (hroom : ∀ rowCount ∈ p.entries, rowCount = 0 ∨ 0 < p.rowsPerBatch) {fuel : Nat}
    (hfuel : ∀ rowCount ∈ p.entries, rowCount < fuel) (out : Words) :
    p.loadImpl fuel out = .ok ((p.takeRows 0 p.entries.sum (start out)).withReader (p.entries.sum * p.sparseFeatureSize)
      ((List.range p.entries.length).map fun t => p.rowAddress (p.tableBase t))) := by
  have hload := foldlM_loadTable_eq hw hfuel hroom (show (start out).readPos = 0 * p.sparseFeatureSize by simp [start])
    (show (start out).sliceOffset = p.rowAddress 0 by simp [start, rowAddress])
  rw [loadImpl, if_neg (by omega)]
  refine hload.trans ?_
  simp only [Nat.zero_add]
  rfl

/-- A row that was written is stored with its tag. -/
theorem RowsWritten.stored {out : Words} {st : LoadState} {n r : Nat} (h : p.RowsWritten out st n) (hr : r < n) :
    p.RowStored st.out r := by
  have hstride : p.stride = p.sparseFeatureSize + if p.includeTag then p.writer.metaWords else 0 := rfl
  refine ⟨fun e he => ?_, fun htag => blockAt_eq fun j hj => ?_⟩
  · rw [h.row_eq r hr e (by omega), rowImage, if_pos he]
  · have hmeta := p.writer.metaWords_eq
    rw [if_pos htag] at hstride
    rw [Nat.add_assoc, h.row_eq r hr _ (by omega), rowImage, if_neg (by omega), if_pos (by omega),
      Nat.add_sub_cancel_left]

/-- **A load ends and leaves all rows encrypted**, for widths that are a multiple of four and fit the batch buffer. -/
theorem loadImpl_spec (hpos : 0 < p.sparseFeatureSize) (hw : p.sparseFeatureSize % 4 = 0)
    (hmax : p.sparseFeatureSize ≤ 2048) {fuel : Nat} (hfuel : ∀ rowCount ∈ p.entries, rowCount < fuel) (out : Words) :
    ∃ st, p.loadImpl fuel out = .ok st ∧ p.Progress st p.entries.sum ∧
      st.readPos = p.entries.sum * p.sparseFeatureSize ∧
      ∀ t < p.entries.length, st.tableOffsets.getD t 0 = p.rowAddress (p.tableBase t) := by
  have hbatch : 0 < p.rowsPerBatch := Nat.div_pos (by omega) (by omega)
  have hrows := rowsWritten_takeRows hw out p.entries.sum
  refine ⟨_, loadImpl_eq_rows hpos hw (fun _ _ => .inr hbatch) hfuel out,
    ⟨hrows.outPos_eq, hrows.offset_eq, fun r hr => hrows.stored hr⟩, rfl, fun t ht => ?_⟩
  show ((List.range p.entries.length).map _).getD t 0 = _
  rw [List.getD_eq_getElem?_getD]
  simp [ht]

/-! ## Widths that can be loaded -/

/-- Rows that were stored were whole pads wide. -/
theorem width_of_loadBatch {rows : Nat} (hrows : 0 < rows) {st st' : LoadState} (h : p.loadBatch rows st = .ok st') :
    p.sparseFeatureSize % 4 = 0 := by
  obtain ⟨n, rfl⟩ := Nat.exists_eq_succ_of_ne_zero hrows.ne'
  rw [loadBatch, List.range_succ_eq_map, List.foldlM_cons] at h
  obtain ⟨next, hrow, -⟩ := bind_eq_ok.mp h
  obtain ⟨encrypted, hencrypt, -⟩ := bind_eq_ok.mp hrow
  unfold EncryptionEngine.encrypt at hencrypt
  split at hencrypt
  · assumption
  · exact nomatch hencrypt

/-- The loop over a table that has rows ends only if a batch has room for a row. -/
theorem width_of_loadTable {rowsPerBatch fuel rowCount : Nat} (hcount : 0 < rowCount) {st st' : LoadState}
    (h : p.loadTable rowsPerBatch fuel rowCount st = .ok st') : 0 < rowsPerBatch ∧ p.sparseFeatureSize % 4 = 0 := by
  induction fuel generalizing rowCount st with
  | zero => exact nomatch h
  | succ fuel ih =>
      rw [loadTable, if_neg (by omega)] at h
      obtain ⟨next, hbatch, hrest⟩ := bind_eq_ok.mp h
      by_cases hroom : 0 < rowsPerBatch
      · exact ⟨hroom, width_of_loadBatch (by omega) hbatch⟩
      · -- without room no rows are taken, and the same number is left
        exact ih (by omega) hrest

/-- **Tables with rows can be loaded only if the width is a multiple of four and fits the batch buffer.** -/
theorem width_of_loadImpl {fuel : Nat} {out : Words} {st : LoadState} (h : p.loadImpl fuel out = .ok st)
    {rowCount : Nat} (hmem : rowCount ∈ p.entries) (hcount : 0 < rowCount) :
    0 < p.sparseFeatureSize ∧ p.sparseFeatureSize % 4 = 0 ∧ p.sparseFeatureSize ≤ 2048 := by
  rw [loadImpl] at h
  split at h
  · exact nomatch h
  · rename_i hwidth
    obtain ⟨before, after, htable⟩ := exists_of_foldlM_mem h hmem
    obtain ⟨hroom, hfour⟩ := width_of_loadTable hcount htable
    have hmax : 4 * p.sparseFeatureSize ≤ 8192 := by
      by_contra hlarge
      rw [rowsPerBatch, Nat.div_eq_of_lt (by omega)] at hroom
      omega
    exact ⟨by omega, hfour, by omega⟩

end Preprocessor

end Pnm.Secure

import Pnm.Imdb.BitScan
import Pnm.Imdb.IndexScan

/-!
# `Imdb.Simulator` — scans dispatched by the simulator and by the software runner

The model of the scan part of `SimulatorCore::worker_job` with `dispatch_scan_operation`, and of
`AVX2Runner::scan_impl` for index vectors. The areas of device memory that the registers point to are words of their
own; a scan reads the column and the list and writes the result. The clock registers are left out.

The limit of an index-vector scan is only the size of the view it is given. `result_limit_iff` says when it is kept,
and when the runner stays inside its vector.
-/

namespace Pnm.Imdb

/-- The registers of a thread that a scan reads, and the result size it writes. -/
structure ThreadCSR where
  ctrl : BitVec 32
  compMode : BitVec 32
  sizeSb : BitVec 64
  minValue : BitVec 32
  maxValue : BitVec 32
  inlistSize : BitVec 32
  rsltLmt : BitVec 32
  resSizeSb : BitVec 64

/-- `OutputType`. -/
inductive OutputType where
  | bitVector
  | indexVector
deriving DecidableEq

/-- `OperationType`. -/
inductive OperationType where
  | inRange
  | inList
deriving DecidableEq

/-- The words at `THREAD_START_ADDR`, at `THREAD_INLIST_ADDR` and at the result address. -/
structure ScanMemory where
  column : Words 32
  list : Words 32
  result : Words 32

namespace ThreadCSR

variable (regs : ThreadCSR)

/-- `output_type`: `THREAD_CTRL_OUTPUT_TYPE_MASK` against `THREAD_CTRL_IV`. -/
def outputType : OutputType := if regs.ctrl &&& 0b10 = 0b10 then .indexVector else .bitVector

/-- `operation_type`: `THREAD_COMP_MODE_OPERATION_TYPE_MASK` against `THREAD_COMP_MODE_IN_LIST`. -/
def operationType : OperationType := if regs.compMode &&& 0x100 = 0x100 then .inList else .inRange

/-- `bit_size`. -/
def bitSize : Nat := (regs.compMode &&& 0b11111).toNat

/-- `column_view`. -/
def columnView (mem : ScanMemory) : BitCompressed 32 :=
  { valueBits := regs.bitSize, size := regs.sizeSb.toNat, data := mem.column }

/-- The predicate that `dispatch_by_operation_type` makes. -/
def predicate (mem : ScanMemory) : ScanPredicate :=
  match regs.operationType with
  | .inList  => .inList { size := regs.inlistSize.toNat, data := mem.list }
  | .inRange => .inRange regs.minValue regs.maxValue

end ThreadCSR

/-- `dispatch_scan_operation`. -/
def dispatchScanOperation (regs : ThreadCSR) (mem : ScanMemory) : Option (ThreadCSR × ScanMemory) :=
  match regs.outputType with
  | .bitVector => do
      let view : BitVectorView 32 := { size := (regs.columnView mem).size, data := mem.result }
      let (_, out) ← scanBits (regs.columnView mem) (regs.predicate mem) view
      some ({ regs with resSizeSb := regs.sizeSb }, { mem with result := out.data })
  | .indexVector => do
      let view : IndexView := { size := regs.rsltLmt.toNat, data := mem.result }
      let (resultSize, out) ← scanIndices (regs.columnView mem) (regs.predicate mem) view
      some ({ regs with resSizeSb := BitVec.ofNat 64 resultSize }, { mem with result := out.data })

/-- `AVX2Runner::scan_impl` for an index vector: allocate one entry for each row, scan, and resize to the count. -/
def runnerScan (column : BitCompressed 32) (predicate : ScanPredicate) : Option (List (BitVec 32)) := do
  let outElement : IndexView := { size := column.size, data := fun _ => 0 }
  let (size, out) ← scanIndices column predicate outElement
  some ((List.range size).map fun k => if k < column.size then out.data k else 0)

/-! ## The limit -/

section Limit

variable {column : BitCompressed 32} {predicate : ScanPredicate}

/-- All stores fit exactly if the one of the last block does. -/
theorem roomForBlock_iff {limit : Nat} :
    (∀ b, 8 * b < column.size → RoomForBlock column predicate limit b) ↔
      column.size = 0 ∨ (acceptedLanes column predicate (8 * ((column.size - 1) / 8))).length + 8 ≤ limit := by
  constructor
  · intro h
    by_cases hempty : column.size = 0
    · exact .inl hempty
    · exact .inr (h ((column.size - 1) / 8) (by omega))
  · rintro (hempty | hlast) b hb
    · omega
    · have hmono := length_acceptedLanes_mono column predicate
        (show 8 * b ≤ 8 * ((column.size - 1) / 8) by omega)
      unfold RoomForBlock
      omega

/-- At most eight lanes are accepted in the last block. -/
theorem count_le_of_roomForBlock {limit : Nat}
    (h : column.size = 0 ∨ (acceptedLanes column predicate (8 * ((column.size - 1) / 8))).length + 8 ≤ limit) :
    (acceptedLanes column predicate (8 * ((column.size + 7) / 8))).length ≤ limit := by
  rcases h with hempty | hlast
  · rw [hempty]
    exact Nat.zero_le _
  · by_cases hempty : column.size = 0
    · rw [hempty]
      exact Nat.zero_le _
    · rw [show 8 * ((column.size + 7) / 8) = 8 * ((column.size - 1) / 8) + 8 by omega, acceptedLanes, List.range_add,
        List.filter_append, List.length_append]
      have hblock : (((List.range 8).map (8 * ((column.size - 1) / 8) + ·)).filter
          (fun i => predicate.accepts (column.getValue i))).length ≤ 8 :=
        (List.length_filter_le _ _).trans_eq (by simp)
      unfold acceptedLanes at hlast
      omega

/-- The eight entries stored for the last block fit behind the rows accepted before it. -/
def LastFits (column : BitCompressed 32) (predicate : ScanPredicate) (limit : Nat) : Prop :=
  column.size = 0 ∨ (acceptedLanes column predicate (8 * ((column.size - 1) / 8))).length + 8 ≤ limit

variable (predicate) in
/-- **A scan into a view**: either the last store fits, and the scan returns without touching what is behind the view,
    or a store leaves the view. -/
theorem scanIndices_cases (hw : column.valueBits ≤ 18) (result : IndexView) :
    (LastFits column predicate result.size ∧ ∃ count out, scanIndices column predicate result = some (count, out) ∧
      count ≤ result.size ∧ ∀ k ≥ result.size, out.data k = result.data k) ∨
    (¬ LastFits column predicate result.size ∧ scanIndices column predicate result = none) := by
  by_cases hlast : LastFits column predicate result.size
  · obtain ⟨count, out, hscan, hreported⟩ := scanIndices_spec hw (roomForBlock_iff.mpr hlast)
    exact .inl ⟨hlast, count, out, hscan, hreported.count_eq ▸ count_le_of_roomForBlock hlast, hreported.behind⟩
  · obtain ⟨b, hb⟩ := not_forall.mp (mt roomForBlock_iff.mp hlast)
    obtain ⟨hblock, hnot⟩ := Classical.not_imp.mp hb
    exact .inr ⟨hlast, scanIndices_eq_none hw hblock hnot⟩

end Limit

/-- The dispatched scan writes only to the first `THREAD_RSLT_LMT` entries and reports at most as many. -/
def LimitKept (regs : ThreadCSR) (mem : ScanMemory) : Prop :=
  ∃ regs' mem', dispatchScanOperation regs mem = some (regs', mem') ∧
    regs'.resSizeSb.toNat ≤ regs.rsltLmt.toNat ∧ ∀ k ≥ regs.rsltLmt.toNat, mem'.result k = mem.result k

theorem limitKept_iff {regs : ThreadCSR} (mem : ScanMemory) (hiv : regs.outputType = .indexVector)
    (hw : regs.bitSize ≤ 18) :
    LimitKept regs mem ↔ LastFits (regs.columnView mem) (regs.predicate mem) regs.rsltLmt.toNat := by
  rcases scanIndices_cases (regs.predicate mem) (show (regs.columnView mem).valueBits ≤ 18 from hw)
    { size := regs.rsltLmt.toNat, data := mem.result } with ⟨hlast, count, out, hscan, hcount, hbehind⟩ | ⟨hlast, hscan⟩
  · refine iff_of_true ⟨{ regs with resSizeSb := BitVec.ofNat 64 count }, { mem with result := out.data }, ?_, ?_,
      hbehind⟩ hlast
    · simp only [dispatchScanOperation, hiv, hscan]
      rfl
    · show (BitVec.ofNat 64 count).toNat ≤ _
      rw [BitVec.toNat_ofNat]
      exact (Nat.mod_le _ _).trans hcount
  · refine iff_of_false ?_ hlast
    rintro ⟨regs', mem', hrun, -⟩
    simp only [dispatchScanOperation, hiv, hscan] at hrun
    exact Option.some_ne_none _ hrun.symm

theorem runnerScan_isSome_iff {column : BitCompressed 32} (hw : column.valueBits ≤ 18) (predicate : ScanPredicate) :
    (runnerScan column predicate).isSome ↔ LastFits column predicate column.size := by
  rcases scanIndices_cases predicate hw { size := column.size, data := fun _ => 0 } with
    ⟨hlast, count, out, hscan, -⟩ | ⟨hlast, hscan⟩
  · refine iff_of_true ?_ hlast
    simp only [runnerScan, hscan]
    rfl
  · refine iff_of_false ?_ hlast
    simp only [runnerScan, hscan]
    exact Bool.false_ne_true

/-- **The result limit**: a dispatched index-vector scan keeps it exactly if the eight entries of the last block fit
    behind the rows accepted in the blocks before. The software runner, whose vector has an entry for each row,
    stays inside it under the same condition. -/
theorem result_limit_iff {regs : ThreadCSR} (mem : ScanMemory) (hiv : regs.outputType = .indexVector)
    (hregs : 1 ≤ regs.bitSize ∧ regs.bitSize ≤ 18) {column : BitCompressed 32} (predicate : ScanPredicate)
    (hw : 1 ≤ column.valueBits ∧ column.valueBits ≤ 18) :
    (LimitKept regs mem ↔ regs.sizeSb.toNat = 0 ∨
      (acceptedLanes (regs.columnView mem) (regs.predicate mem) (8 * ((regs.sizeSb.toNat - 1) / 8))).length + 8
        ≤ regs.rsltLmt.toNat) ∧
    ((runnerScan column predicate).isSome ↔ column.size = 0 ∨
      (acceptedLanes column predicate (8 * ((column.size - 1) / 8))).length + 8 ≤ column.size) :=
  ⟨limitKept_iff mem hiv hregs.2, runnerScan_isSome_iff hw.2 predicate⟩

/-- An index-vector scan for the values from `1` to `5` in a column of two bytes, with the given limit. -/
def sampleRegs (limit : BitVec 32) : ThreadCSR :=
  { ctrl := 0b11, compMode := 8, sizeSb := 2, minValue := 1, maxValue := 5, inlistSize := 0, rsltLmt := limit,
    resSizeSb := 0 }

def sampleMemory : ScanMemory := { column := fun _ => 0x0301, list := fun _ => 0, result := fun _ => 0 }

theorem result_limit_iff_sample : LimitKept (sampleRegs 8) sampleMemory ∧
    (runnerScan (BitCompressed.ofValues 1 (List.replicate 16 0)) (.inRange 1 1)).isSome := by
  have hlimit := result_limit_iff sampleMemory (show (sampleRegs 8).outputType = .indexVector from rfl) (by decide)
    (.inRange 1 1) (show 1 ≤ (BitCompressed.ofValues 1 (List.replicate 16 0#32)).valueBits ∧ _ by decide +kernel)
  exact ⟨hlimit.1.mpr (by decide +kernel), hlimit.2.mpr (by decide +kernel)⟩

/-- With a limit of two entries and two matching rows the scan stores eight entries; so does the runner. -/
theorem result_limit_exceeded : ¬ LimitKept (sampleRegs 2) sampleMemory ∧
    ¬ (runnerScan (BitCompressed.ofValues 8 [1, 3]) (.inRange 1 5)).isSome := by
  rw [limitKept_iff sampleMemory rfl (by decide), runnerScan_isSome_iff (by decide)]
  unfold LastFits
  decide +kernel

end Pnm.Imdb

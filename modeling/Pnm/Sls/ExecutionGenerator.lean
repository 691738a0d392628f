import Pnm.Lib.Blocks
import Pnm.Sls.Topology

/-!
# `Sls.ExecutionGenerator` — cutting an operation into executions

The model of `sls/operation/execution_generator.{h,cpp}`. `generate` walks the packs in mask order, the
tables of a pack in layout order and the batches of a table, and adds each batch to the execution under
construction. A batch that would overflow the instruction buffer or the psum buffer commits that execution
and opens the next one.

The batch offset of a chunk is not known when the chunk is opened: `TableData`'s constructor leaves it
indeterminate (`none` here), and whichever `commitTableBatches` closes the chunk reads it from the counters
`tablesBatches`. Assertions are compiled out, as in a release build.

Counters are natural numbers: the minibatch size is a `uint32_t` of the operation, which bounds the 32-bit
loop counter, chunks and, within one call, `tablesBatches`, and the `size_t` totals stay below the two buffer
limits. Over several calls the `uint32_t` of a counter is its remainder (`Sls.Replan`).

The step equations at the end say what committing a chunk and adding a batch do to a generator, by the chunk that is
open; every invariant of the planner is derived from them.
-/

namespace Pnm.Sls

open Pnm.Lib

/-- `Execution::TableData`. -/
structure TableData where
  tableId : Nat
  tableBatchesChunk : Nat
  batchOffset : Option Nat
deriving DecidableEq, Repr

/-- `Execution`. -/
@[ext] structure Execution where
  tablesData : List TableData := []
  totalLookups : Nat := 0
  totalBatchesInChunks : Nat := 0
  psumSize : Nat := 0
deriving DecidableEq, Repr

namespace Execution

/-- `Execution::commit_table_batches`: fix the offset of the last chunk and advance its table's counter. -/
def commitTableBatches (e : Execution) (tablesBatches : List Nat) : Execution × List Nat :=
  match e.tablesData.getLast? with
  | none => (e, tablesBatches)
  | some tableData =>
    let batchOffset := tablesBatches.getD tableData.tableId 0
    ({ e with tablesData := modifyBack (fun td => { td with batchOffset := some batchOffset }) e.tablesData },
      tablesBatches.modify tableData.tableId (· + tableData.tableBatchesChunk))

/-- The first half of `Execution::add_batch`: make the last chunk one of table `tId`. -/
def openChunk (e : Execution) (tId : Nat) (tablesBatches : List Nat) : Execution × List Nat :=
  if e.tablesData.isEmpty ∨ e.tablesData.getLast?.map (·.tableId) ≠ some tId then
    let (e, tablesBatches) :=
      if e.tablesData.isEmpty then (e, tablesBatches) else e.commitTableBatches tablesBatches
    ({ e with tablesData := e.tablesData ++ [⟨tId, 0, none⟩] }, tablesBatches)
  else (e, tablesBatches)

/-- `Execution::add_batch`. -/
def addBatch (e : Execution) (tId bLookups : Nat) (tablesBatches : List Nat) : Execution × List Nat :=
  let (e, tablesBatches) := e.openChunk tId tablesBatches
  ({ e with
      tablesData := modifyBack (fun td => { td with tableBatchesChunk := td.tableBatchesChunk + 1 }) e.tablesData
      totalBatchesInChunks := e.totalBatchesInChunks + 1
      totalLookups := e.totalLookups + bLookups }, tablesBatches)

end Execution

/-- `ExecutionGenerator`. -/
structure ExecutionGenerator where
  currentExec : Execution := {}
  execPacks : Nat → List Execution := fun _ => []
  tablesLayout : PacksToObjects
  tablesBatches : List Nat := []
  maxInstInBuf : Nat
  maxFeaturesInBuf : Nat
  sparseFeatureInBytes : Nat

namespace ExecutionGenerator

/-- `ExecutionGenerator::init` on a default-constructed generator. -/
def init (tablesLayout : PacksToObjects) (maxInstInBuf maxFeaturesInBuf sparseFeatureInBytes : Nat) :
    ExecutionGenerator :=
  { tablesLayout, maxInstInBuf, maxFeaturesInBuf, sparseFeatureInBytes }

/-- `ExecutionGenerator::get_pack_execs(uint8_t)`. -/
def getPackExecs (g : ExecutionGenerator) (pack : Nat) : List Execution := g.execPacks (pack % 256)

/-- `current_exec_.commit_table_batches(tables_batches_)`. -/
def commitCurrent (g : ExecutionGenerator) : ExecutionGenerator :=
  let (e, tb) := g.currentExec.commitTableBatches g.tablesBatches
  { g with currentExec := e, tablesBatches := tb }

/-- `current_exec_.add_batch(table_id, batch_lookups, tables_batches_)`. -/
def addCurrent (g : ExecutionGenerator) (tableId batchLookups : Nat) : ExecutionGenerator :=
  let (e, tb) := g.currentExec.addBatch tableId batchLookups g.tablesBatches
  { g with currentExec := e, tablesBatches := tb }

/-- `ExecutionGenerator::try_add_batch`. -/
def tryAddBatch (g : ExecutionGenerator) (tableId batchLookups : Nat) : ExecutionGenerator × Bool :=
  -- Batch will overflow instruction buffer
  if g.currentExec.totalLookups + batchLookups > g.maxInstInBuf then (g.commitCurrent, false)
  -- Batch will overflow psum buffer
  else if g.currentExec.totalBatchesInChunks + 1 > g.maxFeaturesInBuf then (g.commitCurrent, false)
  else (g.addCurrent tableId batchLookups, true)

/-- `ExecutionGenerator::commit_execution(uint8_t)`. -/
def commitExecution (g : ExecutionGenerator) (pack : Nat) : ExecutionGenerator :=
  let e := { g.currentExec with psumSize := g.currentExec.totalBatchesInChunks * g.sparseFeatureInBytes }
  { g with
      execPacks := Function.update g.execPacks (pack % 256) (g.execPacks (pack % 256) ++ [e])
      currentExec := {} }

/-- The body of the batch loop of `generate`. -/
def generateBatch (pack : Nat) (g : ExecutionGenerator) (tableId batchLookups : Nat) : ExecutionGenerator :=
  match g.tryAddBatch tableId batchLookups with
  | (g, true) => g
  -- Here table batches get split into different executions
  | (g, false) => (g.commitExecution pack).addCurrent tableId batchLookups

/-- The batch loop of `generate` for one table. -/
def generateTable (miniBatchSize : Nat) (lengths : List Nat) (pack : Nat) (g : ExecutionGenerator)
    (obj : MemoryObject) : ExecutionGenerator :=
  (List.range miniBatchSize).foldl
    (fun g batchIdx => g.generateBatch pack obj.id (lengths.getD (obj.id * miniBatchSize + batchIdx) 0)) g

/-- Commit last execution if anything left uncommitted for compute unit. -/
def commitLast (g : ExecutionGenerator) (pack : Nat) : ExecutionGenerator :=
  if g.currentExec.totalLookups ≠ 0 then g.commitCurrent.commitExecution pack else g

/-- The body of the pack loop of `generate`. -/
def generatePack (miniBatchSize : Nat) (lengths : List Nat) (g : ExecutionGenerator) (pack : Nat) :
    ExecutionGenerator :=
  ((g.tablesLayout pack).foldl (generateTable miniBatchSize lengths pack) g).commitLast pack

/-- `std::vector::resize`. -/
def resize (l : List Nat) (n : Nat) : List Nat := l.take n ++ List.replicate (n - l.length) 0

/-- `ExecutionGenerator::generate`. -/
def generate (t : Topology) (miniBatchSize numTables : Nat) (lengths : List Nat) (g : ExecutionGenerator) :
    ExecutionGenerator :=
  let g := { g with
    tablesBatches := resize g.tablesBatches numTables
    -- Leave allocated memory (if any) for further usage
    execPacks := fun _ => [] }
  t.packIdentifiers.foldl (generatePack miniBatchSize lengths) g

/-! ## Step equations -/

section Steps

variable {g : ExecutionGenerator} {tableId : Nat}

theorem commitCurrent_nil (h : g.currentExec.tablesData = []) : g.commitCurrent = g := by
  simp [commitCurrent, Execution.commitTableBatches, h]

theorem commitCurrent_concat {chunks : List TableData} {td : TableData}
    (h : g.currentExec.tablesData = chunks ++ [td]) :
    g.commitCurrent = { g with
      currentExec := { g.currentExec with
        tablesData := chunks ++ [{ td with batchOffset := some (g.tablesBatches.getD td.tableId 0) }] }
      tablesBatches := g.tablesBatches.modify td.tableId (· + td.tableBatchesChunk) } := by
  simp [commitCurrent, Execution.commitTableBatches, h]

@[simp] theorem resize_nil (n : Nat) : resize [] n = List.replicate n 0 := by
  simp [resize]

variable (g) in
theorem length_commitCurrent : g.commitCurrent.tablesBatches.length = g.tablesBatches.length := by
  rcases g.currentExec.tablesData.eq_nil_or_concat' with hnil | ⟨chunks, td, hch⟩
  · rw [commitCurrent_nil hnil]
  · rw [commitCurrent_concat hch]
    exact List.length_modify _ _ _

variable (g tableId) in
/-- A batch either needs a new chunk or goes to the open one. -/
theorem lastChunk_cases :
    (∀ td, g.currentExec.tablesData.getLast? = some td → td.tableId ≠ tableId) ∨
      ∃ chunks td, g.currentExec.tablesData = chunks ++ [td] ∧ td.tableId = tableId := by
  by_cases h : ∀ td, g.currentExec.tablesData.getLast? = some td → td.tableId ≠ tableId
  · exact Or.inl h
  · push Not at h
    obtain ⟨td, hlast, hid⟩ := h
    obtain ⟨chunks, hch⟩ := List.getLast?_eq_some_iff.mp hlast
    exact Or.inr ⟨chunks, td, hch, hid⟩

/-- A batch of the table of the open chunk. -/
theorem addCurrent_same {chunks : List TableData} {td : TableData} (batchLookups : Nat)
    (h : g.currentExec.tablesData = chunks ++ [td]) :
    g.addCurrent td.tableId batchLookups = { g with
      currentExec := { g.currentExec with
        tablesData := chunks ++ [{ td with tableBatchesChunk := td.tableBatchesChunk + 1 }]
        totalBatchesInChunks := g.currentExec.totalBatchesInChunks + 1
        totalLookups := g.currentExec.totalLookups + batchLookups } } := by
  have hopen : g.currentExec.openChunk td.tableId g.tablesBatches = (g.currentExec, g.tablesBatches) := by
    simp [Execution.openChunk, h]
  simp [addCurrent, Execution.addBatch, hopen, h]

/-- A batch of another table: the open chunk, if there is one, is committed. -/
theorem addCurrent_other (batchLookups : Nat)
    (h : ∀ td, g.currentExec.tablesData.getLast? = some td → td.tableId ≠ tableId) :
    g.addCurrent tableId batchLookups = { g with
      currentExec := { g.currentExec with
        tablesData := g.commitCurrent.currentExec.tablesData ++ [⟨tableId, 1, none⟩]
        totalBatchesInChunks := g.currentExec.totalBatchesInChunks + 1
        totalLookups := g.currentExec.totalLookups + batchLookups }
      tablesBatches := g.commitCurrent.tablesBatches } := by
  rcases g.currentExec.tablesData.eq_nil_or_concat' with hnil | ⟨chunks, td, hch⟩
  · have hopen : g.currentExec.openChunk tableId g.tablesBatches
        = ({ g.currentExec with tablesData := [⟨tableId, 0, none⟩] }, g.tablesBatches) := by
      simp [Execution.openChunk, hnil]
    simp [addCurrent, Execution.addBatch, hopen, commitCurrent_nil hnil, hnil]
    rfl
  · have hne : td.tableId ≠ tableId := h td (by simp [hch])
    have hopen : g.currentExec.openChunk tableId g.tablesBatches
        = ({ g.currentExec with tablesData := g.commitCurrent.currentExec.tablesData ++ [⟨tableId, 0, none⟩] },
            g.commitCurrent.tablesBatches) := by
      simp [Execution.openChunk, Execution.commitTableBatches, commitCurrent_concat hch, hch, hne]
    simp [addCurrent, Execution.addBatch, hopen]

variable (g) in
/-- One round of the batch loop adds the batch, to the current execution if it fits there. -/
theorem generateBatch_eq (pack tableId batchLookups : Nat) :
    g.generateBatch pack tableId batchLookups =
      if g.currentExec.totalLookups + batchLookups ≤ g.maxInstInBuf ∧
          g.currentExec.totalBatchesInChunks + 1 ≤ g.maxFeaturesInBuf then
        g.addCurrent tableId batchLookups
      else (g.commitCurrent.commitExecution pack).addCurrent tableId batchLookups := by
  unfold generateBatch tryAddBatch
  by_cases hinst : g.currentExec.totalLookups + batchLookups > g.maxInstInBuf
  · rw [if_pos hinst, if_neg (by omega)]
  · by_cases hfeat : g.currentExec.totalBatchesInChunks + 1 > g.maxFeaturesInBuf
    · rw [if_neg hinst, if_pos hfeat, if_neg (by omega)]
    · rw [if_neg hinst, if_neg hfeat, if_pos (by omega)]

end Steps

end ExecutionGenerator

end Pnm.Sls

import Pnm.Lib.BoundScan
import Pnm.Lib.Buffer
import Pnm.Lib.Grid
import Pnm.Sls.Operation

/-!
# `Sls.ParamChecks` — checks before an operation runs

The model of `sls/operation/param_checks.cpp`: the check of the feature size, of the parameters of a run, and of
the lookup indices, which debug builds make on every run. `check_device_memory_limits`, which looks at the
device, is not modelled.

`check_indices` goes over tables, batches and lookups, but it finds a lookup by the number of its batch plus the
number of the lookup, where the index array is stored behind prefix sums of the lengths. As a scan with bounds
(`Lib.BoundScan`) it makes the comparisons `checkedReads` instead of `wantedReads`. `checkIndices_exact_iff`
says for which lengths and table sizes this does not matter: every batch with lookups has as many lookups before it as
batches (`InPlace`), or the check always stops at a table without rows (`StopsAtEmptyTable`).
-/

namespace Pnm.Sls

open Pnm.Lib

/-- The errors of the parameter checks, all of them `InvalidArguments`. -/
inductive ParamError where
  | sparseFeatureSize (size : Nat)
  | minibatchSize (size : Nat)
  | emptyLengths
  | emptyIndices
  | emptyPsum
  | sparseIndex (tableId batchId sparseVectorIdx maxLookupIdx : Nat)
deriving DecidableEq, Repr

/-- The texts of the errors. -/
def ParamError.message : ParamError → String
  | sparseFeatureSize n   => s!"Sparse feature size: {n}. Available sizes: 16, 32, 64."
  | minibatchSize n       => s!"Minibatch size: {n}."
  | emptyLengths          => "Lookup lengths can't be empty."
  | emptyIndices          => "Lookup indices can't be empty."
  | emptyPsum             => "Psum results can't be empty."
  | sparseIndex t b i last =>
      s!"Per batch sparse index. Table index: {t}, batch index: {b}, sparse index: {i}. Max lookup index: {last}."

/-- How a check fails: with an error, or because it reads behind the end of the index array. -/
inductive CheckFault where
  | error (e : ParamError)
  | outside (position : Nat)
deriving DecidableEq, Repr

/-- `check_sparse_feature_size`. -/
def checkSparseFeatureSize (sparseFeatureSize : Nat) : Except ParamError Unit :=
  if sparseFeatureSize ∈ [16, 32, 64] then .ok () else .error (.sparseFeatureSize sparseFeatureSize)

theorem checkSparseFeatureSize_eq_ok {n : Nat} (h : checkSparseFeatureSize n = .ok ()) : n = 16 ∨ n = 32 ∨ n = 64 := by
  unfold checkSparseFeatureSize at h
  split at h
  · rename_i hmem
    simpa using hmem
  · cases h

namespace SlsOperation

variable (op : SlsOperation)

/-- The innermost step of `check_indices`. -/
def checkLookup (tableId batchId tablesSizes position : Nat) : Except CheckFault Unit :=
  match op.indices[position]? with
  | none                 => .error (.outside position)
  | some sparseVectorIdx =>
      if sparseVectorIdx ≥ tablesSizes then
        -- the last row's number is a `uint32_t` difference
        .error (.error (.sparseIndex tableId batchId sparseVectorIdx ((tablesSizes + (2 ^ 32 - 1)) % 2 ^ 32)))
      else .ok ()

/-- `check_indices`; all offsets are `uint32_t`. -/
def checkIndices : Except CheckFault Unit :=
  (List.range op.tablesSizes.length).forM fun tableId =>
    let tablesSizes := op.tablesSizes.getD tableId 0
    let tableDataOffset := tableId * op.minibatchSize % 2 ^ 32
    (List.range op.minibatchSize).forM fun batchId =>
      let tableBatchDataOffset := (tableDataOffset + batchId) % 2 ^ 32
      let dataLookupLength := op.lengths.getD tableBatchDataOffset 0
      (List.range dataLookupLength).forM fun lookupId =>
        op.checkLookup tableId batchId tablesSizes ((tableBatchDataOffset + lookupId) % 2 ^ 32)

/-- `check_run_params`; `psum` is the size of the operation's result array. -/
def checkRunParams (debug : Bool) (psum : Nat) : Except CheckFault Unit :=
  if op.minibatchSize = 0 then .error (.error (.minibatchSize op.minibatchSize))
  else if op.lengths.isEmpty then .error (.error .emptyLengths)
  else if op.indices.isEmpty then .error (.error .emptyIndices)
  else if psum = 0 then .error (.error .emptyPsum)
  else if debug then op.checkIndices
  else .ok ()

/-! ## `check_indices` as a scan -/

/-- The comparisons `check_indices` makes, in order. -/
def checkedReads : List BoundedRead :=
  (List.range op.tablesSizes.length).flatMap fun tableId =>
    (List.range op.minibatchSize).flatMap fun batchId =>
      let batch := (tableId * op.minibatchSize + batchId) % 2 ^ 32
      (List.range (op.lengths.getD batch 0)).map fun lookupId =>
        ⟨(batch + lookupId) % 2 ^ 32, op.tablesSizes.getD tableId 0⟩

/-- The comparisons a check of every lookup makes. -/
def wantedReads : List BoundedRead :=
  (List.range op.tablesSizes.length).flatMap fun tableId =>
    (List.range op.minibatchSize).flatMap fun batchId =>
      (List.range (op.lengthOf (tableId, batchId))).map fun lookupId =>
        ⟨op.startOf (tableId, batchId) + lookupId, op.tablesSizes.getD tableId 0⟩

end SlsOperation

/-- A check's end, as that of a scan. -/
def scanResult : Except CheckFault Unit → ScanResult
  | .ok _               => .passed
  | .error (.error _)   => .rejected
  | .error (.outside _) => .outside

theorem scanResult_bind (x y : Except CheckFault Unit) :
    scanResult (x >>= fun _ => y) = if scanResult x = .passed then scanResult y else scanResult x := by
  match x with
  | .ok _               => rfl
  | .error (.error _)   => rfl
  | .error (.outside _) => rfl

/-- **Loops flatten.** If each round of a loop ends like the scan of some reads, the loop ends like the scan of all
    of them. -/
theorem scanResult_forM {α : Type} {a : List Nat} {round : α → Except CheckFault Unit} {reads : α → List BoundedRead}
    (h : ∀ x, scanResult (round x) = scan a (reads x)) (xs : List α) :
    scanResult (xs.forM round) = scan a (xs.flatMap reads) := by
  induction xs with
  | nil => rfl
  | cons x xs ih =>
      rw [List.flatMap_cons, scan_append, ← h, ← ih]
      exact scanResult_bind (round x) (xs.forM round)

namespace SlsOperation

variable (op : SlsOperation)

theorem scanResult_checkLookup (tableId batchId tablesSizes position : Nat) :
    scanResult (op.checkLookup tableId batchId tablesSizes position)
      = scan op.indices [⟨position, tablesSizes⟩] := by
  unfold checkLookup scan
  cases op.indices[position]? with
  | none     => rfl
  | some idx =>
      dsimp only
      split
      · rfl
      · rfl

/-- **`check_indices` is the scan of its reads.** -/
theorem scanResult_checkIndices : scanResult op.checkIndices = scan op.indices op.checkedReads := by
  unfold checkIndices checkedReads
  apply scanResult_forM
  intro tableId
  apply scanResult_forM
  intro batchId
  have hbatch : (tableId * op.minibatchSize % 2 ^ 32 + batchId) % 2 ^ 32
      = (tableId * op.minibatchSize + batchId) % 2 ^ 32 := Nat.mod_add_mod _ _ _
  dsimp only
  rw [hbatch, List.map_eq_flatMap]
  apply scanResult_forM
  intro lookupId
  exact op.scanResult_checkLookup _ _ _ _

/-- The wanted comparisons ask one thing of each position of the index array. -/
theorem map_pos_wantedReads (hlengths : op.lengths.length = op.tablesSizes.length * op.minibatchSize) :
    op.wantedReads.map (·.pos) = List.range op.lengths.sum := by
  unfold wantedReads lengthOf startOf
  simp only [List.map_flatMap, List.map_map]
  rw [← flatMap_range_sum, hlengths, ← flatMap_range_mul]
  rfl

/-- A wanted comparison is violated if a lookup of its batch is. -/
theorem exists_violated_iff : (∃ w ∈ op.wantedReads, w.Violated op.indices) ↔
    ∃ tableId < op.tablesSizes.length, ∃ batchId < op.minibatchSize, ∃ row ∈ op.lookups (tableId, batchId),
      op.tablesSizes.getD tableId 0 ≤ row := by
  unfold wantedReads
  simp only [List.mem_flatMap, List.mem_map, List.mem_range]
  constructor
  · rintro ⟨w, ⟨tableId, ht, batchId, hb, k, hk, rfl⟩, row, hrow, hle⟩
    refine ⟨tableId, ht, batchId, hb, row, ?_, hle⟩
    apply List.mem_of_getElem?
    unfold lookups
    rw [List.getElem?_take_of_lt hk, List.getElem?_drop]
    exact hrow
  · rintro ⟨tableId, ht, batchId, hb, row, hmem, hle⟩
    obtain ⟨k, hk⟩ := List.mem_iff_getElem?.mp hmem
    unfold lookups at hk
    rw [List.getElem?_take] at hk
    split at hk
    · rename_i hlt
      rw [List.getElem?_drop] at hk
      exact ⟨_, ⟨tableId, ht, batchId, hb, k, hlt, rfl⟩, row, hk, hle⟩
    · cases hk

/-- **Index checking is exact**: it stays inside the index array, and it throws exactly when a lookup of some table
    is not below the table's number of rows. -/
structure IndexCheckExact : Prop where
  inside : ∀ position, op.checkIndices ≠ .error (.outside position)
  throws_iff : (∃ e, op.checkIndices = .error (.error e)) ↔
    ∃ tableId < op.tablesSizes.length, ∃ batchId < op.minibatchSize, ∃ row ∈ op.lookups (tableId, batchId),
      op.tablesSizes.getD tableId 0 ≤ row

theorem indexCheckExact_iff_scanExact : op.IndexCheckExact ↔ ScanExact op.checkedReads op.wantedReads op.indices := by
  have hinside : (∀ position, op.checkIndices ≠ .error (.outside position)) ↔
      scanResult op.checkIndices ≠ .outside := by
    match op.checkIndices with
    | .ok _               => simp [scanResult]
    | .error (.error _)   => simp [scanResult]
    | .error (.outside _) => simp [scanResult]
  have hthrows : (∃ e, op.checkIndices = .error (.error e)) ↔ scanResult op.checkIndices = .rejected := by
    match op.checkIndices with
    | .ok _               => simp [scanResult]
    | .error (.error _)   => simp [scanResult]
    | .error (.outside _) => simp [scanResult]
  unfold ScanExact
  rw [← scanResult_checkIndices, exists_violated_iff, ← hinside, ← hthrows]
  exact ⟨fun h => ⟨h.inside, h.throws_iff⟩, fun h => ⟨h.1, h.2⟩⟩

/-- The bounds of all reads are row counts. -/
theorem getD_tablesSizes_lt (hrows : ∀ rows ∈ op.tablesSizes, rows < 2 ^ 32) (tableId : Nat) :
    op.tablesSizes.getD tableId 0 < 2 ^ 32 := by
  rcases Nat.lt_or_ge tableId op.tablesSizes.length with hlt | hge
  · rw [List.getD_eq_getElem _ _ hlt]
    exact hrows _ (List.getElem_mem hlt)
  · rw [List.getD_eq_default _ _ hge]
    decide

/-! ## Batches by their numbers -/

/-- The rows of the table of a batch. -/
def rowsOf (batch : Nat) : Nat := op.tablesSizes.getD (batch / op.minibatchSize) 0

/-- Batches with lookups have as many lookups before them as batches: they are where `check_indices` looks for
    them. -/
def InPlace : Prop :=
  ∀ batch < op.lengths.length, 0 < op.lengths.getD batch 0 → (op.lengths.take batch).sum = batch

/-- A batch with lookups is of a table without rows, its number is a position of the index array, and what is read for
    the batches before it is inside. -/
def StopsAtEmptyTable : Prop :=
  ∃ batch < op.lengths.length, 0 < op.lengths.getD batch 0 ∧ op.rowsOf batch = 0 ∧ batch < op.lengths.sum ∧
    ∀ b < batch, 0 < op.lengths.getD b 0 → b + op.lengths.getD b 0 ≤ op.lengths.sum

instance : Decidable op.InPlace := inferInstanceAs (Decidable (∀ batch < _, _ → _))

variable {op}

/-- Tables and batches, one after the other. -/
theorem flatMap_batches {α : Type} {f : Nat → Nat → List α} {g : Nat → List α}
    (hlengths : op.lengths.length = op.tablesSizes.length * op.minibatchSize)
    (h : ∀ tableId batchId, batchId < op.minibatchSize →
      tableId * op.minibatchSize + batchId < op.lengths.length →
      (tableId * op.minibatchSize + batchId) / op.minibatchSize = tableId →
      f tableId batchId = g (tableId * op.minibatchSize + batchId)) :
    ((List.range op.tablesSizes.length).flatMap fun tableId => (List.range op.minibatchSize).flatMap (f tableId)) =
      (List.range op.lengths.length).flatMap g := by
  rw [hlengths, ← flatMap_range_mul]
  refine List.flatMap_congr fun tableId ht => List.flatMap_congr fun batchId hb => ?_
  rw [List.mem_range] at ht hb
  refine h tableId batchId hb (hlengths ▸ row_add_lt ht hb) ?_
  rw [Nat.mul_comm, Nat.mul_add_div (by omega), Nat.div_eq_of_lt hb, Nat.add_zero]

theorem checkedReads_eq (hlengths : op.lengths.length = op.tablesSizes.length * op.minibatchSize)
    (hbatches : op.lengths.length ≤ 2 ^ 32) :
    op.checkedReads = (List.range op.lengths.length).flatMap fun batch =>
      (List.range (op.lengths.getD batch 0)).map fun lookupId => ⟨(batch + lookupId) % 2 ^ 32, op.rowsOf batch⟩ := by
  refine flatMap_batches hlengths fun tableId batchId _ hlt htable => ?_
  dsimp only
  rw [rowsOf, htable, Nat.mod_eq_of_lt (hlt.trans_le hbatches)]

theorem wantedReads_eq (hlengths : op.lengths.length = op.tablesSizes.length * op.minibatchSize) :
    op.wantedReads = (List.range op.lengths.length).flatMap fun batch =>
      (List.range (op.lengths.getD batch 0)).map fun lookupId =>
        ⟨(op.lengths.take batch).sum + lookupId, op.rowsOf batch⟩ := by
  refine flatMap_batches hlengths fun tableId batchId _ _ htable => ?_
  rw [rowsOf, htable, lengthOf, startOf]

/-- Batches in place are read where they are stored. -/
theorem covers_of_inPlace (hlengths : op.lengths.length = op.tablesSizes.length * op.minibatchSize)
    (hbatches : op.lengths.length ≤ 2 ^ 32) (hsum : op.lengths.sum < 2 ^ 32) (h : op.InPlace) :
    Covers op.checkedReads op.wantedReads := by
  have hsame : op.checkedReads = op.wantedReads := by
    rw [checkedReads_eq hlengths hbatches, wantedReads_eq hlengths]
    refine List.flatMap_congr fun batch hbatch => List.map_congr_left fun lookupId hlookup => ?_
    rw [List.mem_range] at hbatch hlookup
    have hplace := h batch hbatch (by omega)
    have hend := sum_take_add_getD_le op.lengths batch
    rw [hplace, Nat.mod_eq_of_lt (by omega)]
  rw [hsame]
  exact ⟨fun w hw => hw, fun r hr => ⟨r, hr, rfl, Nat.le_refl _⟩⟩

/-- Reads that stay inside the index array do not wrap. -/
theorem add_le_sum_of_inside (hbatches : op.lengths.length ≤ 2 ^ 32) (hsum : op.lengths.sum < 2 ^ 32) {batch : Nat}
    (hbatch : batch < op.lengths.length) (hpos : 0 < op.lengths.getD batch 0)
    (h : ∀ lookupId < op.lengths.getD batch 0, (batch + lookupId) % 2 ^ 32 < op.lengths.sum) :
    batch + op.lengths.getD batch 0 ≤ op.lengths.sum := by
  by_contra hlt
  -- otherwise the position behind the array, or the last one of 32 bits, is read
  rcases Nat.lt_or_ge batch op.lengths.sum with hinside | houtside
  · have hread := h (op.lengths.sum - batch) (by omega)
    rw [Nat.add_sub_cancel' hinside.le, Nat.mod_eq_of_lt hsum] at hread
    exact Nat.lt_irrefl _ hread
  · have hread := h 0 hpos
    rw [Nat.add_zero, Nat.mod_eq_of_lt (hbatch.trans_le hbatches)] at hread
    omega

/-- **Reads that cover every lookup are in place.** -/
theorem inPlace_of_covers (hlengths : op.lengths.length = op.tablesSizes.length * op.minibatchSize)
    (hbatches : op.lengths.length ≤ 2 ^ 32) (hsum : op.lengths.sum < 2 ^ 32)
    (h : Covers op.checkedReads op.wantedReads) : op.InPlace := by
  have hpos := op.map_pos_wantedReads hlengths
  have hreads : ∀ r, r ∈ op.checkedReads ↔ ∃ batch < op.lengths.length, ∃ lookupId < op.lengths.getD batch 0,
      ⟨(batch + lookupId) % 2 ^ 32, op.rowsOf batch⟩ = r := by
    intro r
    simp [checkedReads_eq hlengths hbatches]
  have hinside : ∀ batch < op.lengths.length, ∀ lookupId < op.lengths.getD batch 0,
      (batch + lookupId) % 2 ^ 32 < op.lengths.sum := by
    intro batch hbatch lookupId hlookup
    obtain ⟨w, hw, hwpos, -⟩ := h.implied _ ((hreads _).mpr ⟨batch, hbatch, lookupId, hlookup, rfl⟩)
    rw [← List.mem_range, ← hpos]
    exact List.mem_map.mpr ⟨w, hw, hwpos⟩
  intro batch hbatch hlookups
  refine sum_take_eq_of_covered (fun p hp => ?_) hbatch hlookups
  rw [← List.mem_range, ← hpos, List.mem_map] at hp
  obtain ⟨w, hw, rfl⟩ := hp
  obtain ⟨b, hb, lookupId, hlookup, rfl⟩ := (hreads w).mp (h.complete w hw)
  have hle := add_le_sum_of_inside hbatches hsum hb (by omega) (hinside b hb)
  refine ⟨b, hb, mem_placedRow.mpr ?_⟩
  dsimp only
  rw [Nat.mod_eq_of_lt (by omega)]
  omega

theorem blocked_iff_stopsAtEmptyTable (hlengths : op.lengths.length = op.tablesSizes.length * op.minibatchSize)
    (hbatches : op.lengths.length ≤ 2 ^ 32) (hsum : op.lengths.sum < 2 ^ 32) :
    Blocked op.lengths.sum op.checkedReads op.wantedReads ↔ op.StopsAtEmptyTable := by
  have hstops : StopsAtZero op.lengths.sum op.checkedReads ↔ op.StopsAtEmptyTable := by
    rw [checkedReads_eq hlengths hbatches, stopsAtZero_rounds_iff]
    refine exists_congr fun batch => and_congr_right fun hbatch => ?_
    simp only [stopsAtZero_map_range_iff, Nat.add_zero, Nat.mod_eq_of_lt (hbatch.trans_le hbatches), List.mem_map,
      List.mem_range, forall_exists_index, and_imp, forall_apply_eq_imp_iff₂]
    constructor
    · rintro ⟨hinside, hpos, hrows, hlt⟩
      exact ⟨hpos, hrows, hlt, fun b hb hlookups =>
        add_le_sum_of_inside hbatches hsum (hb.trans hbatch) hlookups (hinside b hb)⟩
    · rintro ⟨hpos, hrows, hlt, hinside⟩
      refine ⟨fun b hb lookupId hlookup => ?_, hpos, hrows, hlt⟩
      have hle := hinside b hb (by omega)
      rw [Nat.mod_eq_of_lt (by omega)]
      omega
  rw [Blocked, hstops, and_iff_right_of_imp]
  -- the batch where the check stops has lookups, and each of them wants a row
  rintro ⟨batch, hbatch, hpos, hrows, -⟩
  refine ⟨⟨(op.lengths.take batch).sum + 0, op.rowsOf batch⟩, ?_, hrows⟩
  rw [wantedReads_eq hlengths]
  exact List.mem_flatMap.mpr ⟨batch, List.mem_range.mpr hbatch,
    List.mem_map.mpr ⟨0, List.mem_range.mpr hpos, rfl⟩⟩

end SlsOperation

/-- **When index checking is exact.** For lengths and table sizes that fit together, with offsets that fit in 32 bits,
    `check_indices` is exact on every index array if and only if every batch with lookups has as many lookups before it
    as batches, or the check stops at a table without rows before it reads outside. -/
theorem checkIndices_exact_iff (op : SlsOperation)
    (hlengths : op.lengths.length = op.tablesSizes.length * op.minibatchSize)
    (hrows : ∀ rows ∈ op.tablesSizes, rows < 2 ^ 32) (hbatches : op.lengths.length ≤ 2 ^ 32)
    (hsum : op.lengths.sum < 2 ^ 32) :
    (∀ indices : List Nat, indices.length = op.lengths.sum → (∀ x ∈ indices, x < 2 ^ 32) →
      { op with indices := indices }.IndexCheckExact) ↔ op.InPlace ∨ op.StopsAtEmptyTable := by
  have hchecked : ∀ r ∈ op.checkedReads, r.bound < 2 ^ 32 := by
    intro r hr
    unfold SlsOperation.checkedReads at hr
    simp only [List.mem_flatMap, List.mem_map] at hr
    obtain ⟨tableId, -, batchId, -, k, -, rfl⟩ := hr
    exact op.getD_tablesSizes_lt hrows tableId
  have hwanted : ∀ w ∈ op.wantedReads, w.bound < 2 ^ 32 := by
    intro w hw
    unfold SlsOperation.wantedReads at hw
    simp only [List.mem_flatMap, List.mem_map] at hw
    obtain ⟨tableId, -, batchId, -, k, -, rfl⟩ := hw
    exact op.getD_tablesSizes_lt hrows tableId
  have hcovers : op.InPlace ↔ Covers op.checkedReads op.wantedReads :=
    ⟨SlsOperation.covers_of_inPlace hlengths hbatches hsum, SlsOperation.inPlace_of_covers hlengths hbatches hsum⟩
  rw [hcovers, ← SlsOperation.blocked_iff_stopsAtEmptyTable hlengths hbatches hsum, or_comm,
    ← scanExact_iff (op.map_pos_wantedReads hlengths) hchecked hwanted]
  -- the reads do not depend on the index array
  apply forall_congr'
  intro indices
  rw [SlsOperation.indexCheckExact_iff_scanExact]
  rfl

/-- Two tables, with one lookup per batch but for the last one, which has three. -/
def lookupsInPlace : SlsOperation where
  opType := .float
  sparseFeatureSize := 16
  tablesSizes := [4, 6]
  minibatchSize := 2
  lengths := [1, 1, 1, 3]
  indices := [0, 1, 5, 2, 3, 4]

/-- There the check is exact: it passes, and if a lookup is replaced by one that only the other table has, it throws. -/
theorem checkIndices_exact_in_place :
    (∀ indices : List Nat, indices.length = 6 → (∀ x ∈ indices, x < 2 ^ 32) →
        { lookupsInPlace with indices := indices }.IndexCheckExact) ∧
      lookupsInPlace.checkIndices = .ok () ∧
      { lookupsInPlace with indices := [0, 5, 5, 2, 3, 4] }.checkIndices =
        .error (.error (.sparseIndex 0 1 5 3)) :=
  ⟨(checkIndices_exact_iff lookupsInPlace rfl (by decide) (by decide) (by decide)).mpr (.inl (by decide)), by decide,
    by decide⟩

/-- Two batches of two lookups in a table of four rows; the last lookup is invalid. -/
def misplacedLookups : SlsOperation where
  opType := .float
  sparseFeatureSize := 16
  tablesSizes := [4]
  minibatchSize := 2
  lengths := [2, 2]
  indices := [0, 1, 2, 9]

/-- **An invalid lookup passes the check**, and a batch behind an empty one is looked for outside the array. -/
theorem checkIndices_misses :
    misplacedLookups.checkIndices = .ok () ∧ misplacedLookups.lookups (0, 1) = [2, 9] ∧
      { misplacedLookups with lengths := [0, 1], indices := [0] }.checkIndices = .error (.outside 1) := by
  decide

end Pnm.Sls

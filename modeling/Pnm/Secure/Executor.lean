import Mathlib.Data.List.GetD
import Pnm.Secure.Preprocessor

/-!
# `Secure.Executor` — a run of the secure SLS

The model of `sls_dlrm_postprocessor.h` and `sls_executor.h`. A run sums the pads of every row on the host, lets the
device sum the stored rows, and adds both. The pads go to a buffer with a tag behind every row, the device's rows and
tags to one with all tags at its end.

The pad tasks run on other threads. Their steps, one for each row, are taken in an order that a scheduler picks; what
the device writes is an argument. Both buffers are kept from run to run, so nothing is assumed of their contents.

`RowPads` says what the pads of one row come to. Each row is filled by one step, so the order of the steps does not
matter (`foldlM_padStep`).
-/

namespace Pnm.Secure

open Pnm.Lib

/-- A vector. -/
structure Buffer where
  size : Nat
  data : Words

/-- `std::vector::resize`. -/
def Buffer.resize (b : Buffer) (n : Nat) : Buffer :=
  { size := n, data := fun i => if i < b.size then b.data i else 0 }

/-! ## Requests -/

/-- The arguments of a run. -/
structure Request where
  minibatchSize : Nat
  lengths : List Nat
  indices : List Nat

/-- `requests_view`: the lookups of one table, as a variable-row view. -/
structure TableRequest where
  table : Nat
  indices : List Nat
  lengths : List Nat

/-- The loop of `reorder_indices`, with the iterators where they stand for table `tid`. -/
def reorderLoop (minibatchSize : Nat) : Nat → Nat → List Nat → List Nat → List TableRequest
  | 0, _, _, _ => []
  | tables + 1, tid, lengths, indices =>
      let row := lengths.take minibatchSize
      let lookupsInMinibatch := row.sum
      { table := tid, indices := indices.take lookupsInMinibatch, lengths := row } ::
        reorderLoop minibatchSize tables (tid + 1) (lengths.drop minibatchSize) (indices.drop lookupsInMinibatch)

/-- `reorder_indices`; the rowwise view of the lengths divides by the size of its rows. -/
def reorderIndices (numTables : Nat) (q : Request) : Except Fault (List TableRequest) :=
  if q.minibatchSize = 0 then .error .trap else .ok (reorderLoop q.minibatchSize numTables 0 q.lengths q.indices)

/-- The iteration over a variable-row view: it ends where the base is at the end of the range. -/
def variableRows : List Nat → List Nat → Except Fault (List (List Nat))
  | indices, [] => if indices = [] then .ok [] else .error .trap
  | indices, size :: sizes =>
      if indices = [] then .ok []
      else do
        let rows ← variableRows (indices.drop size) sizes
        .ok (indices.take size :: rows)

/-- A step of a pad task: the row of the buffer it fills, and the table and the lookups it does so for. -/
structure PadRow where
  row : Nat
  table : Nat
  lookups : List Nat

/-- The steps of all tasks; the rows of a task start where `execute_sls` has advanced the buffer to. -/
def padRows (rowBase : Nat) : List TableRequest → Except Fault (List PadRow)
  | [] => .ok []
  | request :: requests => do
      let rows ← variableRows request.indices request.lengths
      let rest ← padRows (rowBase + request.lengths.length) requests
      .ok (rows.zipIdx.map (fun l => { row := rowBase + l.2, table := request.table, lookups := l.1 }) ++ rest)

/-! ## Pads -/

/-- `DLRMPostprocessor`. -/
structure Postprocessor where
  encryption : EncryptionEngine
  verification : VerificationEngine
  offsets : List (BitVec 64)
  colsCount : Nat

/-- `fill_offsets`. -/
def Postprocessor.fillOffsets (post : Postprocessor) (table : Nat) (indices : List Nat) : List (BitVec 64) :=
  indices.map fun index => post.offsets.getD table 0 + BitVec.ofNat 64 (4 * (index * post.colsCount))

/-- `OperationExecutor`, with what the device has stored. -/
structure Executor where
  numTables : Nat
  sparseFeatureSize : Nat
  withTag : Bool
  postprocessor : Postprocessor
  stored : Words
  cpsum : Buffer
  epsum : Buffer

namespace Executor

variable (ex : Executor)

/-- `augmented_row_size`. -/
def augmentedRowSize : Nat := ex.sparseFeatureSize + if ex.withTag then 4 else 0

/-- The addresses of the pads of a row. -/
def addresses (q : PadRow) : List (BitVec 64) := ex.postprocessor.fillOffsets q.table q.lookups

/-- The body of the loops of `perform_sls_impl`: the pads of one row. -/
def padStep (epsum : Words) (q : PadRow) : Except Fault Words := do
  let sums ← ex.postprocessor.encryption.offsetTransformReduceVec (ex.addresses q) ex.sparseFeatureSize fun _ => 0
  let summed := splice epsum (q.row * ex.augmentedRowSize) ex.sparseFeatureSize sums
  if ex.withTag then do
    let etag ← ex.postprocessor.verification.offsetTransformReduceVec (ex.addresses q)
    .ok (splice summed (q.row * ex.augmentedRowSize + ex.sparseFeatureSize) 4 (wordOf etag))
  else .ok summed

/-! ## Decryption -/

/-- The variables of `decrypt_psum_impl`. -/
structure DecryptState where
  psum : Words
  checks : Nat → BitVec 8
  status : Bool

/-- The body of the loop of `decrypt_psum_impl`, for row `r`; the tags of the device start at `psumSize`. -/
def decryptRow (psumSize : Nat) (epsum : Words) (st : DecryptState) (r : Nat) : DecryptState :=
  let width := ex.sparseFeatureSize
  let row := EncryptionEngine.decryptPsum (fun e => st.psum (r * width + e))
    (fun e => epsum (r * ex.augmentedRowSize + e))
  let psum := splice st.psum (r * width) width row
  if ex.withTag then
    let ctag := blockAt psum (psumSize + 4 * r)
    let etag := blockAt epsum (r * ex.augmentedRowSize + width)
    let good := ex.postprocessor.verification.validatePsum row width ctag etag
    { psum := psum, checks := Function.update st.checks r (if good then 1 else 0), status := st.status && good }
  else { st with psum := psum, status := st.status && true }

/-- `decrypt`. -/
def decrypt (minibatchSize : Nat) (epsum : Words) (psum : Words) (checks : Nat → BitVec 8) : DecryptState :=
  let rows := minibatchSize * ex.numTables
  (List.range rows).foldl (ex.decryptRow (rows * ex.sparseFeatureSize) epsum)
    { psum := psum, checks := checks, status := true }

/-- `make_user_psum`: copy the rows whose check byte is set. -/
def makeUserPsum (userPsum : Buffer) (augmented : Words) (checks : Nat → BitVec 8) : Words :=
  (List.range (userPsum.size / ex.sparseFeatureSize)).foldl
    (fun psum r =>
      if checks r ≠ 0 then
        splice psum (r * ex.sparseFeatureSize) ex.sparseFeatureSize fun e => augmented (r * ex.sparseFeatureSize + e)
      else psum)
    userPsum.data

/-! ## Runs -/

/-- What a run leaves. -/
structure RunResult where
  executor : Executor
  psum : Words
  checks : Nat → BitVec 8
  status : Bool

/-- `run_sls`. The scheduler orders the steps of the pad tasks; `device` is what the result buffer holds once the
    device has run. -/
def runSls (q : Request) (sched : List PadRow → List PadRow) (device : Words) (psum : Buffer)
    (checks : Nat → BitVec 8) : Except Fault RunResult := do
  let augmentedSize :=
    if ex.withTag then q.minibatchSize * ex.numTables * (ex.sparseFeatureSize + 4) else psum.size
  let requests ← reorderIndices ex.numTables q
  let steps ← padRows 0 requests
  let epsum ← (sched steps).foldlM ex.padStep (ex.epsum.resize augmentedSize).data
  let st := ex.decrypt q.minibatchSize epsum device checks
  if ex.withTag then
    .ok { executor := { ex with epsum := ⟨augmentedSize, epsum⟩, cpsum := ⟨augmentedSize, st.psum⟩ }
          psum := ex.makeUserPsum psum st.psum st.checks, checks := st.checks, status := st.status }
  else
    .ok { executor := { ex with epsum := ⟨augmentedSize, epsum⟩ }, psum := st.psum, checks := st.checks
          status := st.status }

end Executor

/-- `load_tables`: the output starts as zeros and goes to the device. -/
def Preprocessor.loadTables (p : Preprocessor) (fuel : Nat) (cpsum epsum : Buffer) : Except Fault Executor := do
  let st ← p.loadImpl fuel fun _ => 0
  .ok { numTables := p.entries.length
        sparseFeatureSize := p.sparseFeatureSize
        withTag := p.includeTag
        postprocessor := { encryption := p.encryption, verification := p.verification, offsets := st.tableOffsets
                           colsCount := p.sparseFeatureSize }
        stored := st.out
        cpsum := cpsum
        epsum := epsum }

/-! ## The steps of the pad tasks -/

/-- The lookups of a row: row `r` is batch `r % minibatchSize` of table `r / minibatchSize`. -/
def Request.lookups (q : Request) (r : Nat) : List Nat := (q.lengths.splitLengths q.indices).getD r []

/-- The step of row `r`. -/
def Request.padRow (q : Request) (r : Nat) : PadRow :=
  { row := r, table := r / q.minibatchSize, lookups := q.lookups r }

/-- Without empty rows the iteration visits all rows. -/
theorem variableRows_eq {indices sizes : List Nat} (hpos : ∀ size ∈ sizes, 1 ≤ size)
    (hsum : indices.length = sizes.sum) : variableRows indices sizes = .ok (sizes.splitLengths indices) := by
  induction sizes generalizing indices with
  | nil =>
      rw [List.sum_nil, List.length_eq_zero_iff] at hsum
      rw [variableRows, if_pos hsum, List.splitLengths_nil]
  | cons size sizes ih =>
      rw [List.sum_cons] at hsum
      have hsize := hpos size (by simp)
      have hne : indices ≠ [] := by
        rintro rfl
        rw [List.length_nil] at hsum
        omega
      rw [variableRows, if_neg hne, ih (fun s hs => hpos s (by simp [hs])) (by rw [List.length_drop]; omega),
        List.splitLengths_cons]
      rfl

/-- **The steps of all tasks**: one for each row, in the order of the rows. -/
theorem padRows_reorderLoop {m : Nat} (hm : 0 < m) {tables tid rowBase : Nat} {lengths indices : List Nat}
    (hlength : lengths.length = tables * m) (hpos : ∀ l ∈ lengths, 1 ≤ l) (hsum : indices.length = lengths.sum) :
    padRows rowBase (reorderLoop m tables tid lengths indices) = .ok ((List.range (tables * m)).map fun r =>
      { row := rowBase + r, table := tid + r / m, lookups := (lengths.splitLengths indices).getD r [] }) := by
  induction tables generalizing tid rowBase lengths indices with
  | zero => simp [reorderLoop, padRows]
  | succ tables ih =>
      have hrow : (lengths.take m).length = m := by
        rw [List.length_take, hlength, Nat.succ_mul]
        omega
      have hsplit : lengths.sum = (lengths.take m).sum + (lengths.drop m).sum := by
        rw [← List.sum_append, List.take_append_drop]
      have hfirst : variableRows (indices.take (lengths.take m).sum) (lengths.take m)
          = .ok ((lengths.take m).splitLengths indices) := by
        rw [variableRows_eq (fun s hs => hpos s (List.mem_of_mem_take hs)) (by rw [List.length_take]; omega),
          splitLengths_take _ _ le_rfl]
      have hrest : padRows (rowBase + m) (reorderLoop m tables (tid + 1) (lengths.drop m)
          (indices.drop (lengths.take m).sum)) = _ :=
        ih (by rw [List.length_drop, hlength, Nat.succ_mul]; omega) (fun l hl => hpos l (List.mem_of_mem_drop hl))
          (by rw [List.length_drop]; omega)
      have hrows : lengths.splitLengths indices = (lengths.take m).splitLengths indices ++
          (lengths.drop m).splitLengths (indices.drop (lengths.take m).sum) := by
        rw [← splitLengths_append, List.take_append_drop]
      have hnumbered := map_zipIdx_eq (fun l k => PadRow.mk (rowBase + k) tid l)
        ((lengths.take m).splitLengths indices) []
      rw [List.length_splitLengths, hrow] at hnumbered
      -- the rows of the first table, then those of the others
      rw [reorderLoop, padRows, hfirst, hrow, hrest, Nat.succ_mul, Nat.add_comm (tables * m), List.range_add,
        List.map_append, List.map_map, hrows]
      refine congrArg Except.ok (congrArg₂ _ (hnumbered.trans ?_) ?_)
      · refine List.map_congr_left fun k hk => ?_
        have hlt := List.mem_range.mp hk
        rw [List.getD_append _ _ _ _ (by rw [List.length_splitLengths, hrow]; exact hlt), Nat.div_eq_of_lt hlt,
          Nat.add_zero]
      · refine List.map_congr_left fun k _ => ?_
        rw [Function.comp_apply, List.getD_append_right _ _ _ _ (by rw [List.length_splitLengths, hrow]; omega),
          List.length_splitLengths, hrow, Nat.add_sub_cancel_left, Nat.add_div_left _ hm]
        simp only [PadRow.mk.injEq, and_true]
        omega

namespace Executor

variable {ex : Executor}

/-- What the pads of a row come to. -/
def RowPads (ex : Executor) (x : PadRow) (sums : Words) (etag : BitVec 128) : Prop :=
  ex.postprocessor.encryption.offsetTransformReduceVec (ex.addresses x) ex.sparseFeatureSize (fun _ => 0) = .ok sums ∧
  (ex.withTag = true → ex.postprocessor.verification.offsetTransformReduceVec (ex.addresses x) = .ok etag)

/-- Row `r` of the pad buffer holds these sums. -/
def RowHolds (ex : Executor) (epsum : Words) (r : Nat) (sums : Words) (etag : BitVec 128) : Prop :=
  (∀ e < ex.sparseFeatureSize, epsum (r * ex.augmentedRowSize + e) = sums e) ∧
  (ex.withTag = true → blockAt epsum (r * ex.augmentedRowSize + ex.sparseFeatureSize) = etag)

theorem augmentedRowSize_of_tag (h : ex.withTag = true) : ex.augmentedRowSize = ex.sparseFeatureSize + 4 := by
  rw [augmentedRowSize, if_pos h]

theorem sparseFeatureSize_le (ex : Executor) : ex.sparseFeatureSize ≤ ex.augmentedRowSize := Nat.le_add_right _ _

/-- A row is held as long as its cells stay. -/
theorem RowHolds.of_eq {epsum epsum' : Words} {r : Nat} {sums : Words} {etag : BitVec 128}
    (h : ex.RowHolds epsum r sums etag)
    (heq : ∀ e < ex.augmentedRowSize, epsum' (r * ex.augmentedRowSize + e) = epsum (r * ex.augmentedRowSize + e)) :
    ex.RowHolds epsum' r sums etag := by
  have hle := sparseFeatureSize_le ex
  refine ⟨fun e he => by rw [heq e (by omega), h.1 e he], fun htag => ?_⟩
  have haug := augmentedRowSize_of_tag htag
  rw [← h.2 htag]
  refine blockAt_congr fun j hj => ?_
  rw [Nat.add_assoc, heq _ (by omega)]

/-- **A step fills its row** and leaves the others. -/
theorem padStep_of_pads {x : PadRow} {sums : Words} {etag : BitVec 128} (h : ex.RowPads x sums etag) (epsum : Words) :
    ∃ out, ex.padStep epsum x = .ok out ∧ ex.RowHolds out x.row sums etag ∧
      ∀ r e, r ≠ x.row → e < ex.augmentedRowSize →
        out (r * ex.augmentedRowSize + e) = epsum (r * ex.augmentedRowSize + e) := by
  have hle := sparseFeatureSize_le ex
  cases htag : ex.withTag with
  | false =>
      refine ⟨splice epsum (x.row * ex.augmentedRowSize) ex.sparseFeatureSize sums, ?_, ⟨fun e he => splice_add he, ?_⟩,
        fun r e hr he => splice_out (row_disjoint hr he hle)⟩
      · rw [padStep, h.1, htag]
        rfl
      · rw [htag]
        exact fun hfalse => nomatch hfalse
  | true =>
      have haug := augmentedRowSize_of_tag htag
      refine ⟨splice (splice epsum (x.row * ex.augmentedRowSize) ex.sparseFeatureSize sums)
        (x.row * ex.augmentedRowSize + ex.sparseFeatureSize) 4 (wordOf etag), ?_, ⟨fun e he => ?_, fun _ => ?_⟩,
        fun r e hr he => ?_⟩
      · rw [padStep, h.1, h.2 htag, htag]
        rfl
      · rw [splice_out (.inl (by omega)), splice_add he]
      · exact blockAt_eq fun j hj => splice_add hj
      · have happart := row_disjoint (w := ex.augmentedRowSize) hr he le_rfl
        rw [splice_out (by omega), splice_out (by omega)]

/-- **The steps in any order**: each row is filled once, so its sums are there at the end. -/
theorem foldlM_padStep {steps : List PadRow} (hdistinct : (steps.map PadRow.row).Nodup) {sums : Nat → Words}
    {etags : Nat → BitVec 128} (hpads : ∀ x ∈ steps, ex.RowPads x (sums x.row) (etags x.row)) (epsum : Words) :
    ∃ out, steps.foldlM ex.padStep epsum = .ok out ∧
      (∀ x ∈ steps, ex.RowHolds out x.row (sums x.row) (etags x.row)) ∧
      ∀ r e, r ∉ steps.map PadRow.row → e < ex.augmentedRowSize →
        out (r * ex.augmentedRowSize + e) = epsum (r * ex.augmentedRowSize + e) := by
  induction steps generalizing epsum with
  | nil => exact ⟨epsum, rfl, fun x hx => absurd hx (by simp), fun _ _ _ _ => rfl⟩
  | cons x steps ih =>
      rw [List.map_cons, List.nodup_cons] at hdistinct
      obtain ⟨next, hstep, hholds, hframe⟩ := padStep_of_pads (hpads x (by simp)) epsum
      obtain ⟨out, hrest, hrows, hframe'⟩ := ih hdistinct.2 (fun y hy => hpads y (by simp [hy])) next
      refine ⟨out, ?_, ?_, ?_⟩
      · rw [List.foldlM_cons]
        exact bind_eq_ok.mpr ⟨next, hstep, hrest⟩
      · intro y hy
        rcases List.mem_cons.mp hy with rfl | hy
        · exact hholds.of_eq fun e he => hframe' _ e hdistinct.1 he
        · exact hrows y hy
      · intro r e hr he
        rw [List.map_cons, List.mem_cons, not_or] at hr
        rw [hframe' r e hr.2 he, hframe r e hr.1 he]

/-- A step that returns has its pads. -/
theorem pads_of_padStep {x : PadRow} {epsum out : Words} (h : ex.padStep epsum x = .ok out) :
    ∃ sums etag, ex.RowPads x sums etag := by
  obtain ⟨sums, hsums, hrest⟩ := bind_eq_ok.mp h
  cases htag : ex.withTag with
  | false => exact ⟨sums, 0, hsums, fun htrue => absurd (htag.symm.trans htrue) (by decide)⟩
  | true =>
      rw [htag] at hrest
      obtain ⟨etag, hetag, -⟩ := bind_eq_ok.mp hrest
      exact ⟨sums, etag, hsums, fun _ => hetag⟩

theorem pads_of_foldlM {steps : List PadRow} {epsum out : Words} (h : steps.foldlM ex.padStep epsum = .ok out) :
    ∀ x ∈ steps, ∃ sums etag, ex.RowPads x sums etag := by
  intro x hx
  obtain ⟨before, after, hstep⟩ := exists_of_foldlM_mem h hx
  exact pads_of_padStep hstep

end Executor

end Pnm.Secure

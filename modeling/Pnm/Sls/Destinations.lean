import Pnm.Lib.Tiling
import Pnm.Sls.TagReadback

/-!
# `Sls.Destinations` — where the results of a plan go

`SparseReduction::write_result` copies the results of an execution, chunk by chunk, to the places that
`ExecutionPacksData` has computed: output 0 are the psums, output 1, in tagged operations, the tags behind all psums.
The addresses follow from a chunk's table and batch offset, which the planner fixed while it went through the packs; the
output is ordered by table. `destinations_tile` puts the two together: over all packs, executions and chunks the byte
ranges tile the output, and the calls of `write_result`, in any order, put each batch's result in its place and change
nothing else. So executions of different packs can write their results at the same time.
-/

namespace Pnm.Sls

open Pnm.Lib

namespace SlsOperation

variable (op : SlsOperation) (t : Topology)

/-- `SparseReduction::get_sparse_ft_tag_nb`. -/
def sparseFtTagNb : Nat := if op.isTagged then singleTagSize else 0

/-- The tags of a chunk (`tags_addr_`), as a byte offset into the user's psum. -/
def tagsAddr (td : TableData) : Nat :=
  op.lengths.length * op.sparseFtDataNb t +
    (td.tableId * (op.minibatchSize * singleTagSize) + td.batchOffset.getD 0 * singleTagSize)

/-- The size of one result and the address of a chunk's results, by output number. -/
def outputPlace : Nat → Option (Nat × (TableData → Nat))
  | 0 => some (op.sparseFtDataNb t, op.psumAddr t)
  | 1 => some (op.sparseFtTagNb, op.tagsAddr t)
  | _ => none

end SlsOperation

/-- The byte ranges `write_result` writes for some chunks. -/
def chunkRanges (size : Nat) (dst : TableData → Nat) (tds : List TableData) : List (Nat × Nat) :=
  tds.map fun td => (dst td, chunkSize size td)

namespace SlsOperation

variable (op : SlsOperation) (t : Topology)

/-- `SparseReduction::write_result`. -/
def writeOutput (outputNo : Nat) (exec : Execution) (src out : Mem) : Except String Mem :=
  match op.outputPlace t outputNo with
  | some (size, dst) => .ok (writeResult size dst src exec.tablesData 0 out)
  | none             => .error s!"Output buffer number {outputNo}."

/-- `SparseReduction::get_num_outputs`. -/
def numOutputs : Nat := if op.isTagged then 2 else 1

/-! ## All chunks of a plan -/

section Plan

variable (layout : PacksToObjects) (env : Option BufDivider)

/-- The chunks of all executions of all packs. -/
def planChunks : List TableData :=
  t.packIdentifiers.flatMap fun p => ((op.execGen t layout env).getPackExecs p).flatMap (·.tablesData)

/-- The byte ranges of one output, over the whole plan. -/
def outputRanges (outputNo : Nat) : List (Nat × Nat) :=
  match op.outputPlace t outputNo with
  | some (size, dst) => chunkRanges size dst (op.planChunks t layout env)
  | none             => []

/-- The byte ranges of all outputs. -/
def writtenRanges : List (Nat × Nat) := (List.range op.numOutputs).flatMap (op.outputRanges t layout env)

/-- The calls of `write_result` that a plan leads to: every output of every execution of every pack. -/
def planCalls : List (Nat × Execution) :=
  (List.range op.numOutputs).flatMap fun outputNo =>
    t.packIdentifiers.flatMap fun p => ((op.execGen t layout env).getPackExecs p).map (outputNo, ·)

end Plan

variable {op t} {layout : PacksToObjects} {env : Option BufDivider}

/-- The pairs of a plan, pack by pack. -/
theorem Plannable.planChunks_keys (h : op.Plannable t layout) :
    (op.planChunks t layout env).flatMap TableData.keys
      = ((t.packIdentifiers.flatMap layout).map (·.id)).flatMap fun id =>
          (List.range op.minibatchSize).map (id, ·) := by
  rw [← map_key_packBatches op.minibatchSize op.lengths, ← flatMap_packBatches, List.map_flatMap]
  unfold planChunks
  rw [List.flatMap_assoc]
  apply List.flatMap_congr
  intro p hp
  rw [← h.pack_keys hp, List.flatMap_assoc]
  rfl

/-- **The chunks of a plan tile the grid** of tables and batches. -/
theorem Plannable.tiles_grid (h : op.Plannable t layout) (env : Option BufDivider) :
    Tiles ((op.planChunks t layout env).map fun td =>
        (td.tableId * op.minibatchSize + td.batchOffset.getD 0, td.tableBatchesChunk))
      0 (op.tablesSizes.length * op.minibatchSize) := by
  apply tiles_of_perm
  have hpoints : ∀ td : TableData, List.range' (td.tableId * op.minibatchSize + td.batchOffset.getD 0)
      td.tableBatchesChunk = td.keys.map fun key => key.1 * op.minibatchSize + key.2 := by
    intro td
    unfold TableData.keys
    rw [List.map_map, ← List.map_add_range']
    rfl
  have hplaced : ((t.packIdentifiers.flatMap layout).map (·.id)).Perm (List.range op.tablesSizes.length) := by
    rw [map_id_flatMap]
    exact h.placed
  rw [List.flatMap_map]
  simp only [hpoints]
  rw [← List.map_flatMap, h.planChunks_keys, ← List.range_eq_range', ← map_range_mul, List.map_flatMap]
  simp only [List.map_map, Function.comp_def]
  exact hplaced.flatMap_right _

/-- A chunk of a plan fits the psum buffer. -/
theorem Plannable.chunk_le (h : op.Plannable t layout) {td : TableData} (htd : td ∈ op.planChunks t layout env) :
    td.tableBatchesChunk * op.sparseFtDataNb t ≤ t.psumSingleBufSize := by
  obtain ⟨p, hp, htd⟩ := List.mem_flatMap.mp htd
  obtain ⟨e, he, htd⟩ := List.mem_flatMap.mp htd
  exact (h.execOk hp he).chunk_le htd

/-- **One output.** Results of a fixed size that are stored in the order of the grid tile their area. -/
theorem Plannable.tiles_output (h : op.Plannable t layout) {size base : Nat} {dst : TableData → Nat} (hsize : 0 < size)
    (hdst : ∀ td, dst td = base + (td.tableId * op.minibatchSize + td.batchOffset.getD 0) * size)
    (hfit : ∀ td ∈ op.planChunks t layout env, td.tableBatchesChunk * size < 2 ^ 32) :
    Tiles (chunkRanges size dst (op.planChunks t layout env)) base
      (op.tablesSizes.length * op.minibatchSize * size) := by
  have hscale := (h.tiles_grid env).scale hsize base
  have hranges : chunkRanges size dst (op.planChunks t layout env)
      = ((op.planChunks t layout env).map fun td =>
          (td.tableId * op.minibatchSize + td.batchOffset.getD 0, td.tableBatchesChunk)).map
            fun r => (base + r.1 * size, r.2 * size) := by
    unfold chunkRanges
    rw [List.map_map]
    apply List.map_congr_left
    intro td htd
    rw [hdst, chunkSize, Nat.mod_eq_of_lt (hfit td htd)]
    rfl
  rw [hranges]
  simpa using hscale

section Outputs

variable (h : op.Plannable t layout) (ht : t = .axdimm ∨ t = .cxl)
  (hfeature : checkSparseFeatureSize op.sparseFeatureSize = .ok ())
include ht hfeature

/-- Results are no smaller than a tag, and the psum buffer is smaller than 4 GiB. -/
theorem featureBytes : 16 ≤ op.sparseFtDataNb t ∧ t.psumSingleBufSize < 2 ^ 32 := by
  unfold sparseFtDataNb
  rcases checkSparseFeatureSize_eq_ok hfeature with h | h | h <;> rw [h] <;> rcases ht with rfl | rfl <;> decide

include h

theorem Plannable.chunk_lt {td : TableData} (htd : td ∈ op.planChunks t layout env) :
    td.tableBatchesChunk * op.sparseFtDataNb t < 2 ^ 32 :=
  (h.chunk_le htd).trans_lt (featureBytes ht hfeature).2

/-- **The psums** tile the front of the output. -/
theorem Plannable.tiles_psum (env : Option BufDivider) :
    Tiles (op.outputRanges t layout env 0) 0
      (op.tablesSizes.length * op.minibatchSize * op.sparseFtDataNb t) := by
  have hbytes := (featureBytes ht hfeature).1
  apply h.tiles_output (by omega) _ fun td htd => h.chunk_lt ht hfeature htd
  intro td
  rw [Nat.zero_add]
  exact psumAddr_eq td

/-- **The tags** tile the area behind the psums. -/
theorem Plannable.tiles_tags (env : Option BufDivider) (htagged : op.isTagged = true) :
    Tiles (op.outputRanges t layout env 1)
      (op.tablesSizes.length * op.minibatchSize * op.sparseFtDataNb t)
      (op.tablesSizes.length * op.minibatchSize * 16) := by
  have hnb : op.sparseFtTagNb = 16 := if_pos htagged
  unfold outputRanges outputPlace
  rw [hnb]
  apply h.tiles_output (by decide)
  · intro td
    show op.tagsAddr t td = op.tablesSizes.length * op.minibatchSize * op.sparseFtDataNb t
      + (td.tableId * op.minibatchSize + td.batchOffset.getD 0) * 16
    unfold tagsAddr
    rw [h.consistent.lengths, Nat.add_mul, Nat.mul_assoc td.tableId]
    rfl
  · intro td htd
    have hle : td.tableBatchesChunk * 16 ≤ td.tableBatchesChunk * op.sparseFtDataNb t :=
      Nat.mul_le_mul_left _ (featureBytes ht hfeature).1
    exact hle.trans_lt (h.chunk_lt ht hfeature htd)

end Outputs

/-! ## Writing the results -/

section Calls

variable (op t)

/-- The byte ranges one call writes. -/
def callRanges (c : Nat × Execution) : List (Nat × Nat) :=
  match op.outputPlace t c.1 with
  | some (size, dst) => chunkRanges size dst c.2.tablesData
  | none             => []

/-- The area of an output: where it begins, and the size of one result. -/
def area (outputNo : Nat) : Nat × Nat :=
  if outputNo = 0 then (0, op.sparseFtDataNb t) else (op.lengths.length * op.sparseFtDataNb t, op.sparseFtTagNb)

variable {op t}

theorem flatMap_callRanges (layout : PacksToObjects) (env : Option BufDivider) :
    (op.planCalls t layout env).flatMap (op.callRanges t) = op.writtenRanges t layout env := by
  unfold planCalls writtenRanges
  rw [List.flatMap_assoc]
  refine List.flatMap_congr fun outputNo _ => ?_
  rw [List.flatMap_assoc]
  unfold outputRanges planChunks
  cases hplace : op.outputPlace t outputNo with
  | none => simp [callRanges, hplace]
  | some place =>
      simp only [chunkRanges, List.map_flatMap, List.flatMap_map, callRanges, hplace]

/-- An output of the operation has a place, and its chunks are placed by table and batch. -/
theorem outputPlace_eq {outputNo : Nat} (h : outputNo < op.numOutputs) :
    ∃ dst, op.outputPlace t outputNo = some ((op.area t outputNo).2, dst) ∧
      ∀ td, dst td = op.place (op.area t outputNo).1 (op.area t outputNo).2 (td.tableId, td.batchOffset.getD 0) := by
  unfold numOutputs at h
  match outputNo with
  | 0 => exact ⟨op.psumAddr t, rfl, psumAddr_eq_place⟩
  | 1 =>
      have htagged : op.isTagged = true := by
        by_contra hnot
        rw [if_neg hnot] at h
        omega
      refine ⟨op.tagsAddr t, rfl, fun td => ?_⟩
      have hnb : op.sparseFtTagNb = singleTagSize := if_pos htagged
      rw [tagsAddr, place, area, if_neg Nat.one_ne_zero]
      dsimp only
      rw [hnb, Nat.add_mul, Nat.mul_assoc]
  | n + 2 =>
      split at h
      · omega
      · omega

end Calls

end SlsOperation

/-- A call of `write_result` for an execution, with the results it is given. -/
structure ResultCall where
  outputNo : Nat
  exec : Execution
  src : Mem

namespace SlsOperation

variable {op : SlsOperation} {t : Topology} {layout : PacksToObjects} {env : Option BufDivider}

/-- **Calls in any order.** If no two ranges of some calls overlap, bytes outside them stay, and in the ranges of a call
    there is what this call writes. -/
theorem exists_foldlM_writeOutput {calls : List ResultCall} (hout : ∀ c ∈ calls, c.outputNo < op.numOutputs)
    (hapart : (calls.flatMap fun c => op.callRanges t (c.outputNo, c.exec)).Pairwise Apart) (out : Mem) :
    ∃ out', calls.foldlM (fun out c => op.writeOutput t c.outputNo c.exec c.src out) out = .ok out' ∧
      (∀ x, (∀ c ∈ calls, ∀ r ∈ op.callRanges t (c.outputNo, c.exec), ¬ InSpan r x) → out' x = out x) ∧
      ∀ c ∈ calls, ∀ x, (∃ r ∈ op.callRanges t (c.outputNo, c.exec), InSpan r x) →
        ∀ before after, op.writeOutput t c.outputNo c.exec c.src before = .ok after → out' x = after x := by
  induction calls generalizing out with
  | nil => exact ⟨out, rfl, fun _ _ => rfl, fun c hc => absurd hc List.not_mem_nil⟩
  | cons c calls ih =>
      obtain ⟨dst, hplace, -⟩ := outputPlace_eq (t := t) (hout c List.mem_cons_self)
      generalize (op.area t c.outputNo).2 = size at hplace
      have hwrite : ∀ out, op.writeOutput t c.outputNo c.exec c.src out
          = .ok (writeResult size dst c.src c.exec.tablesData 0 out) := by
        intro out
        simp only [writeOutput, hplace]
      have hranges : op.callRanges t (c.outputNo, c.exec) = chunkRanges size dst c.exec.tablesData := by
        simp only [callRanges, hplace]
      rw [List.flatMap_cons, List.pairwise_append] at hapart
      obtain ⟨-, hrest, hcross⟩ := hapart
      obtain ⟨out', hrun, hframe, hinside⟩ :=
        ih (fun d hd => hout d (List.mem_cons_of_mem _ hd)) hrest (writeResult size dst c.src c.exec.tablesData 0 out)
      refine ⟨out', ?_, fun x hx => ?_, fun d hd x hx => ?_⟩
      · rw [List.foldlM_cons, hwrite]
        exact hrun
      · rw [hframe x fun d hd => hx d (List.mem_cons_of_mem _ hd)]
        refine writeResult_frame fun td htd => hx c List.mem_cons_self _ ?_
        rw [hranges]
        exact List.mem_map_of_mem htd
      · rcases List.mem_cons.mp hd with rfl | hd
        · intro before after hafter
          rw [hwrite] at hafter
          obtain rfl := Except.ok.inj hafter
          -- the later calls leave these bytes alone
          obtain ⟨r, hr, hin⟩ := hx
          rw [hframe x fun e he s hs hsx => hcross r hr s (List.mem_flatMap.mpr ⟨e, he, hs⟩) x hin hsx]
          rw [hranges] at hr
          obtain ⟨td, htd, rfl⟩ := List.mem_map.mp hr
          exact writeResult_congr _ _ ⟨td, htd, hin⟩
        · exact hinside d hd x hx

end SlsOperation

/-- **The destinations of a plan.** The byte ranges written for all outputs, packs, executions and chunks do not
    overlap, those of the psums are the psum area, those of the tags the area behind it, and the indices of each chunk
    are those of its first batch on. Whatever the order of the calls of `write_result` for all outputs and executions,
    they change no byte outside these areas, and the result that is at place `j` of a call's source arrives at the place
    of the `j`-th batch of its execution. -/
structure DestinationsTile (op : SlsOperation) (t : Topology) (layout : PacksToObjects) (env : Option BufDivider) :
    Prop where
  apart : (op.writtenRanges t layout env).Pairwise Apart
  psum : ∀ x, (∃ r ∈ op.outputRanges t layout env 0, InSpan r x) ↔
    x < op.tablesSizes.length * op.minibatchSize * op.sparseFtDataNb t
  tags : op.isTagged = true → ∀ x, (∃ r ∈ op.outputRanges t layout env 1, InSpan r x) ↔
    InSpan (op.tablesSizes.length * op.minibatchSize * op.sparseFtDataNb t,
      op.tablesSizes.length * op.minibatchSize * 16) x
  index : ∀ td ∈ op.planChunks t layout env,
    op.indexOffset td = (op.lengths.take (td.tableId * op.minibatchSize + td.batchOffset.getD 0)).sum
  written : ∀ (calls : List ResultCall) (out : Mem),
    (calls.map fun c => (c.outputNo, c.exec)).Perm (op.planCalls t layout env) →
    ∃ out', calls.foldlM (fun out c => op.writeOutput t c.outputNo c.exec c.src out) out = .ok out' ∧
      (∀ x, op.tablesSizes.length * op.minibatchSize * (op.sparseFtDataNb t + op.sparseFtTagNb) ≤ x → out' x = out x) ∧
      ∀ c ∈ calls, ∀ j key, c.exec.keys[j]? = some key → ∀ i < (op.area t c.outputNo).2,
        out' (op.place (op.area t c.outputNo).1 (op.area t c.outputNo).2 key + i)
          = c.src (j * (op.area t c.outputNo).2 + i)

section Written

open SlsOperation

variable {op : SlsOperation} {t : Topology} {layout : PacksToObjects} {env : Option BufDivider}

/-- The area of all outputs. -/
theorem lt_of_mem_writtenRanges
    (hpsum : Tiles (op.outputRanges t layout env 0) 0 (op.tablesSizes.length * op.minibatchSize * op.sparseFtDataNb t))
    (htags : op.isTagged = true → Tiles (op.outputRanges t layout env 1)
      (op.tablesSizes.length * op.minibatchSize * op.sparseFtDataNb t) (op.tablesSizes.length * op.minibatchSize * 16))
    {r : Nat × Nat} (hr : r ∈ op.writtenRanges t layout env) {x : Nat} (hx : InSpan r x) :
    x < op.tablesSizes.length * op.minibatchSize * (op.sparseFtDataNb t + op.sparseFtTagNb) := by
  rw [Nat.mul_add]
  obtain ⟨outputNo, hlt, hr⟩ := List.mem_flatMap.mp hr
  rw [List.mem_range, numOutputs] at hlt
  by_cases hzero : outputNo = 0
  · subst hzero
    have hin := (hpsum.covers x).mp ⟨r, hr, hx⟩
    unfold InSpan at hin
    dsimp only at hin
    omega
  · have htagged : op.isTagged = true := by
      by_contra hnot
      rw [if_neg hnot] at hlt
      omega
    rw [if_pos htagged] at hlt
    obtain rfl : outputNo = 1 := by omega
    have hin := ((htags htagged).covers x).mp ⟨r, hr, hx⟩
    have hnb : op.sparseFtTagNb = 16 := if_pos htagged
    unfold InSpan at hin
    dsimp only at hin
    rw [hnb]
    omega

/-- **What all calls of a plan write**, whatever their order. -/
theorem written_of_apart (h : op.Plannable t layout) (ht : t = .axdimm ∨ t = .cxl)
    (hfeature : checkSparseFeatureSize op.sparseFeatureSize = .ok ())
    (hapart : (op.writtenRanges t layout env).Pairwise Apart) {calls : List ResultCall} (out : Mem)
    (hcalls : (calls.map fun c => (c.outputNo, c.exec)).Perm (op.planCalls t layout env)) :
    ∃ out', calls.foldlM (fun out c => op.writeOutput t c.outputNo c.exec c.src out) out = .ok out' ∧
      (∀ x, (∀ r ∈ op.writtenRanges t layout env, ¬ InSpan r x) → out' x = out x) ∧
      ∀ c ∈ calls, ∀ j key, c.exec.keys[j]? = some key → ∀ i < (op.area t c.outputNo).2,
        out' (op.place (op.area t c.outputNo).1 (op.area t c.outputNo).2 key + i)
          = c.src (j * (op.area t c.outputNo).2 + i) := by
  have hmem : ∀ c ∈ calls, c.outputNo < op.numOutputs ∧
      ∃ p ∈ t.packIdentifiers, c.exec ∈ (op.execGen t layout env).getPackExecs p := by
    intro c hc
    have hplan := hcalls.mem_iff.mp (List.mem_map_of_mem hc)
    simp only [planCalls, List.mem_flatMap, List.mem_map, List.mem_range, Prod.mk.injEq] at hplan
    obtain ⟨outputNo, hlt, p, hp, e, he, rfl, rfl⟩ := hplan
    exact ⟨hlt, p, hp, he⟩
  have hranges : (calls.flatMap fun c => op.callRanges t (c.outputNo, c.exec)).Perm
      (op.writtenRanges t layout env) := by
    have hperm := hcalls.flatMap_right (op.callRanges t)
    rwa [flatMap_callRanges, List.flatMap_map] at hperm
  have hsymm : ∀ r s : Nat × Nat, Apart r s → Apart s r := fun _ _ hrs x hs hr => hrs x hr hs
  obtain ⟨out', hrun, hframe, hinside⟩ := exists_foldlM_writeOutput (fun c hc => (hmem c hc).1)
    ((hranges.pairwise_iff (hsymm _ _)).mpr hapart) out
  refine ⟨out', hrun, fun x hx => hframe x fun c hc r hr => hx r ?_, fun c hc j key hkey i hi => ?_⟩
  · exact hranges.mem_iff.mp (List.mem_flatMap.mpr ⟨c, hc, hr⟩)
  · obtain ⟨hlt, p, hp, he⟩ := hmem c hc
    obtain ⟨dst, hplace, hdst⟩ := outputPlace_eq (t := t) hlt
    have hok := h.execOk hp he
    have hbytes := featureBytes ht hfeature
    have hsize : (op.area t c.outputNo).2 ≤ op.sparseFtDataNb t := by
      unfold area sparseFtTagNb singleTagSize
      split
      · exact Nat.le_refl _
      · dsimp only
        split <;> omega
    have hfit : ∀ td ∈ c.exec.tablesData, td.tableBatchesChunk * (op.area t c.outputNo).2 < 2 ^ 32 := fun td htd =>
      ((Nat.mul_le_mul_left _ hsize).trans (hok.chunk_le htd)).trans_lt hbytes.2
    have hchunks : ∀ td ∈ c.exec.tablesData, op.ChunkOk td := fun td htd => (hok.chunks td htd).batches
    have hnodup : (c.exec.tablesData.flatMap TableData.keys).Nodup :=
      (List.nodup_flatMap.mp (h.nodup_pack_keys hp)).1 c.exec he
    obtain ⟨td, htd, htdkey⟩ := List.mem_flatMap.mp (List.mem_of_getElem? hkey)
    have hspan : ∃ r ∈ op.callRanges t (c.outputNo, c.exec), InSpan r
        (op.place (op.area t c.outputNo).1 (op.area t c.outputNo).2 key + i) := by
      refine ⟨_, ?_, inSpan_of_mem_keys (hchunks td htd) (hfit td htd) htdkey hi⟩
      simp only [callRanges, hplace, ← hdst]
      exact List.mem_map_of_mem htd
    have hwrite : op.writeOutput t c.outputNo c.exec c.src out
        = .ok (writeResult (op.area t c.outputNo).2 dst c.src c.exec.tablesData 0 out) := by
      simp only [writeOutput, hplace]
    rw [hinside c hc _ hspan _ _ hwrite, writeResult_key hdst hchunks hfit hnodup hkey hi, Nat.zero_add]

end Written

/-- **Result destinations tile the output exactly.** -/
theorem destinations_tile (op : SlsOperation) (t : Topology) (layout : PacksToObjects) (env : Option BufDivider)
    (ht : t = .axdimm ∨ t = .cxl) (hfeature : checkSparseFeatureSize op.sparseFeatureSize = .ok ())
    (hpl : Placed t layout op.tablesSizes.length)
    (hsize : op.lengths.length = op.tablesSizes.length * op.minibatchSize) (hpos : ∀ l ∈ op.lengths, 1 ≤ l)
    (hsums : op.SumsFit) : DestinationsTile op t layout env := by
  -- neither the plan nor the destinations look at the indices
  have hplan : { op with indices := List.replicate op.lengths.sum 0 }.Plannable t layout :=
    ⟨hpl, ⟨hsize, List.length_replicate⟩, hpos, features_pos ht hfeature⟩
  have hpsum : Tiles (op.outputRanges t layout env 0) 0
      (op.tablesSizes.length * op.minibatchSize * op.sparseFtDataNb t) := hplan.tiles_psum ht hfeature env
  have htags : op.isTagged = true → Tiles (op.outputRanges t layout env 1)
      (op.tablesSizes.length * op.minibatchSize * op.sparseFtDataNb t)
      (op.tablesSizes.length * op.minibatchSize * 16) := hplan.tiles_tags ht hfeature env
  have hapart : (op.writtenRanges t layout env).Pairwise Apart := by
    unfold SlsOperation.writtenRanges SlsOperation.numOutputs
    by_cases htagged : op.isTagged = true
    · rw [if_pos htagged]
      have happend := hpsum.append (htags htagged) (Nat.zero_add _).symm
      simpa [List.range_succ] using happend.apart
    · rw [if_neg htagged]
      simpa [List.range_succ] using hpsum.apart
  constructor
  · exact hapart
  · intro x
    rw [hpsum.covers]
    unfold InSpan
    simp
  · exact fun htagged => (htags htagged).covers
  · intro td htd
    obtain ⟨p, hp, hmem⟩ := List.mem_flatMap.mp htd
    obtain ⟨e, he, hmem⟩ := List.mem_flatMap.mp hmem
    have hin := (hplan.execOk hp he).chunks td hmem
    have hoff : td.batchOffset.getD 0 + td.tableBatchesChunk ≤ op.minibatchSize := hin.batches
    exact SlsOperation.indexOffset_eq hsums hin.table (by omega)
  · intro calls out hcalls
    obtain ⟨out', hrun, hframe, hplaces⟩ := written_of_apart hplan ht hfeature hapart out hcalls
    refine ⟨out', hrun, fun x hx => hframe x fun r hr hin => ?_, hplaces⟩
    exact absurd (lt_of_mem_writtenRanges hpsum htags hr hin) (Nat.not_lt.mpr hx)

/-- Three tables in two packs, cut into several executions. -/
def taggedSample : SlsOperation where
  opType := .uint32Tagged
  sparseFeatureSize := 16
  tablesSizes := [10, 10, 10]
  minibatchSize := 2
  lengths := [1, 2, 3, 1, 2, 2]
  indices := [0, 1, 2, 3, 4, 5, 6, 7, 8, 9, 0]

/-- Three executions with two outputs each. -/
theorem destinations_tile_sample :
    (taggedSample.planCalls .axdimm layoutSample (some (.ofNat 8000))).map (fun c => (c.1, c.2.keys)) =
        [(0, [(0, 0), (0, 1)]), (0, [(2, 0), (2, 1)]), (0, [(1, 0), (1, 1)]),
          (1, [(0, 0), (0, 1)]), (1, [(2, 0), (2, 1)]), (1, [(1, 0), (1, 1)])] ∧
      DestinationsTile taggedSample .axdimm layoutSample (some (.ofNat 8000)) :=
  ⟨by decide +kernel, destinations_tile taggedSample .axdimm layoutSample _ (.inl rfl) (by decide) (by decide)
    (by decide) (by decide) (by unfold SlsOperation.SumsFit; decide)⟩

end Pnm.Sls

import Pnm.Sls.TraceFits

/-!
# `Sls.TagReadback` — reading the tags of an execution

The model of `BaseDevice::read_and_reset_tags` (`core/device/sls/base.cpp`) as `ReductionRunner::read_output_buffers`
calls it: with the intermediate buffer that `get_tmp_buffer` has sized for the *psum* of the execution. On the device
every 16-byte tag has a slot of 64 bytes; the slots are read into a storage of the compute unit and their tags are
packed into the buffer.

The number of tags is taken from the size of the buffer, so it is not the number of batches but `4`, `8` or `16` times
as many. What is written to the buffer fits, but the slots that are read do not fit the tag buffer unless the execution
has at most a quarter of the batches its psum buffer admits (`tagReadback_inside_iff`).
-/

namespace Pnm.Sls

open Pnm.Lib

/-- `sizeof(pnm::types::uint128_t)`. -/
def singleTagSize : Nat := 16

/-- What `read_and_reset_tags` did: the bytes read from the tag block, the storage of the unit and the caller's buffer
    after it, and the bytes written to that buffer. -/
structure TagRead where
  blockBytes : Nat
  tagsTmp : Mem
  tagsOut : Mem
  outBytes : Nat

/-- The loop over a row-wise view: `n` bytes of each row, one after the other. The second result is where `tags_out`
    points at the end. -/
def copyRows (tmp : Mem) (rowSize n : Nat) : Nat → Nat → Mem → Nat → Mem × Nat
  | 0, _, out, pos           => (out, pos)
  | rows + 1, base, out, pos => copyRows tmp rowSize n rows (base + rowSize) (out.copy pos tmp base n) (pos + n)

/-- `BaseDevice::read_and_reset_tags`. -/
def readAndResetTags (t : Topology) (tagsBlock tagsTmp tagsOut : Mem) (readSize : Nat) : TagRead :=
  let alignedTagsBufferSize := readSize / singleTagSize * t.alignedTagSize
  let tmp := tagsTmp.copy 0 tagsBlock 0 alignedTagsBufferSize
  -- the back gap of a row leaves the tag
  let rowLogicalSize := t.alignedTagSize - (t.alignedTagSize - singleTagSize)
  let (out, pos) := copyRows tmp t.alignedTagSize rowLogicalSize (alignedTagsBufferSize / t.alignedTagSize) 0 tagsOut 0
  ⟨alignedTagsBufferSize, tmp, out, pos⟩

/-- The tags of an execution: the buffer of `get_tmp_buffer` has `get_psum_read_size` bytes. -/
def readTags (t : Topology) (tagsBlock tagsTmp tmpBuffer : Mem) (exec : Execution) : TagRead :=
  readAndResetTags t tagsBlock tagsTmp tmpBuffer exec.psumSize

theorem readTags_blockBytes (t : Topology) (tagsBlock tagsTmp tmpBuffer : Mem) (exec : Execution) :
    (readTags t tagsBlock tagsTmp tmpBuffer exec).blockBytes = exec.psumSize / singleTagSize * t.alignedTagSize := rfl

/-! ## The loop over the slots -/

section Rows

variable (tmp : Mem) (rowSize n : Nat)

theorem copyRows_pos (rows base : Nat) (out : Mem) (pos : Nat) :
    (copyRows tmp rowSize n rows base out pos).2 = pos + rows * n := by
  induction rows generalizing base out pos with
  | zero => simp [copyRows]
  | succ rows ih =>
      rw [copyRows, ih, Nat.succ_mul]
      omega

/-- **What the loop packs**: byte `k` of row `r`, and nothing outside. -/
theorem copyRows_byte (rows base : Nat) (out : Mem) (pos : Nat) :
    (∀ r < rows, ∀ k < n, (copyRows tmp rowSize n rows base out pos).1 (pos + r * n + k)
      = tmp (base + r * rowSize + k)) ∧
      ∀ x, x < pos ∨ pos + rows * n ≤ x → (copyRows tmp rowSize n rows base out pos).1 x = out x := by
  induction rows generalizing base out pos with
  | zero => exact ⟨fun r hr => absurd hr (Nat.not_lt_zero r), fun x _ => rfl⟩
  | succ rows ih =>
      obtain ⟨hrows, hframe⟩ := ih (base + rowSize) (out.copy pos tmp base n) (pos + n)
      rw [copyRows]
      constructor
      · intro r hr k hk
        cases r with
        | zero =>
            rw [hframe _ (by omega), Mem.copy, if_pos (by omega)]
            congr 1
            omega
        | succ r =>
            have h := hrows r (by omega) k hk
            rw [Nat.succ_mul, Nat.succ_mul]
            rw [show pos + (r * n + n) + k = pos + n + r * n + k by omega, h]
            congr 1
            omega
      · intro x hx
        rw [Nat.succ_mul] at hx
        rw [hframe x (by omega), Mem.copy, if_neg (by omega)]

end Rows

/-- **Tags are packed**: tag `r` of the buffer is the tag in slot `r` of the block, and no byte behind the last tag is
    written. -/
theorem readAndResetTags_bytes (t : Topology) (ht : singleTagSize ≤ t.alignedTagSize)
    (tagsBlock tagsTmp tagsOut : Mem) (readSize : Nat) :
    let read := readAndResetTags t tagsBlock tagsTmp tagsOut readSize
    (∀ r < readSize / singleTagSize, ∀ k < singleTagSize,
      read.tagsOut (r * singleTagSize + k) = tagsBlock (r * t.alignedTagSize + k)) ∧
      read.outBytes = readSize / singleTagSize * singleTagSize ∧
      ∀ x, read.outBytes ≤ x → read.tagsOut x = tagsOut x := by
  have hslot : 0 < t.alignedTagSize := Nat.lt_of_lt_of_le (by decide) ht
  have hrow : t.alignedTagSize - (t.alignedTagSize - singleTagSize) = singleTagSize := Nat.sub_sub_self ht
  have hrows : readSize / singleTagSize * t.alignedTagSize / t.alignedTagSize = readSize / singleTagSize :=
    Nat.mul_div_cancel _ hslot
  intro read
  have hbytes : read.outBytes = readSize / singleTagSize * singleTagSize := by
    show (copyRows _ _ _ _ _ _ _).2 = _
    rw [copyRows_pos, hrow, hrows, Nat.zero_add]
  obtain ⟨hpacked, hframe⟩ := copyRows_byte read.tagsTmp t.alignedTagSize singleTagSize
    (readSize / singleTagSize) 0 tagsOut 0
  have hout : read.tagsOut
      = (copyRows read.tagsTmp t.alignedTagSize singleTagSize (readSize / singleTagSize) 0 tagsOut 0).1 := by
    show (copyRows _ _ _ _ _ _ _).1 = _
    rw [hrow, hrows]
    rfl
  refine ⟨?_, hbytes, ?_⟩
  · intro r hr k hk
    have hin : r * t.alignedTagSize + k < readSize / singleTagSize * t.alignedTagSize :=
      row_add_lt hr (hk.trans_le ht)
    have h := hpacked r hr k hk
    rw [Nat.zero_add, Nat.zero_add] at h
    rw [hout, h]
    show Mem.copy _ _ _ _ _ _ = _
    rw [Mem.copy, if_pos (by omega), Nat.zero_add, Nat.sub_zero]
  · intro x hx
    rw [hout]
    apply hframe
    right
    rw [Nat.zero_add, ← hbytes]
    exact hx

/-! ## Sizes -/

/-- **Tag read-back stays inside**: what is read from the block fits one tag buffer of the device and the storage of the
    unit (`TagsBufSize` bytes), and what is written to the caller's buffer fits that. -/
structure TagReadInside (t : Topology) (read : TagRead) (bufferSize : Nat) : Prop where
  block : read.blockBytes ≤ t.tagsSingleBufSize
  storage : read.blockBytes ≤ t.bufSize
  buffer : read.outBytes ≤ bufferSize

/-- **When tag read-back stays inside its buffers.** For every execution of a plan on AXDIMM: if and only if its batches
    have at most 8192 elements in all. -/
theorem tagReadback_inside_iff (op : SlsOperation) (layout : PacksToObjects) (env : Option BufDivider)
    (_htagged : op.isTagged = true) (hfeature : checkSparseFeatureSize op.sparseFeatureSize = .ok ())
    (hpl : Placed .axdimm layout op.tablesSizes.length) (p : Nat) (e : Execution)
    (he : e ∈ (op.execGen .axdimm layout env).getPackExecs p) (tagsBlock tagsTmp tmpBuffer : Mem) :
    TagReadInside .axdimm (readTags .axdimm tagsBlock tagsTmp tmpBuffer e) e.psumSize ↔
      e.totalBatchesInChunks * op.sparseFeatureSize ≤ 8192 := by
  have hfeatures : 0 < (op.limits .axdimm env).maxFeatures := features_pos (.inl rfl) hfeature
  have htotals := totals_freshGenerate op.minibatchSize hpl hfeatures fun l hl => le_setInstrBufferSize env hl _
  have hpsum : e.psumSize = e.totalBatchesInChunks * (op.sparseFeatureSize * 4) := (htotals.committed p e he).2
  have hout : (readTags .axdimm tagsBlock tagsTmp tmpBuffer e).outBytes = e.psumSize / 16 * 16 :=
    (readAndResetTags_bytes .axdimm (by decide) tagsBlock tagsTmp tmpBuffer e.psumSize).2.1
  have hblock : (readTags .axdimm tagsBlock tagsTmp tmpBuffer e).blockBytes = e.psumSize / 16 * 64 :=
    readTags_blockBytes _ _ _ _ _
  have hsingle : Topology.axdimm.tagsSingleBufSize = 131072 := by decide
  have hstorage : Topology.axdimm.bufSize = 262144 := rfl
  -- the psum of a batch is a whole number of tags
  have htags : e.psumSize / 16 * 4 = e.totalBatchesInChunks * op.sparseFeatureSize := by
    rw [hpsum]
    rcases checkSparseFeatureSize_eq_ok hfeature with h | h | h <;> rw [h] <;> omega
  constructor
  · intro h
    have hle := h.block
    rw [hblock, hsingle] at hle
    omega
  · intro h
    constructor
    · rw [hblock, hsingle]
      omega
    · rw [hblock, hstorage]
      omega
    · rw [hout]
      exact Nat.div_mul_le_self _ _

/-- One table of 64 elements per row and a minibatch of the given size, one lookup per batch. -/
def taggedBatches (minibatchSize : Nat) : SlsOperation where
  opType := .uint32Tagged
  sparseFeatureSize := 64
  tablesSizes := [1]
  minibatchSize := minibatchSize
  lengths := List.replicate minibatchSize 1
  indices := List.replicate minibatchSize 0

/-- The tags of four batches. -/
theorem tagReadback_inside_four :
    ((taggedBatches 4).execGen .axdimm oneTable none).getPackExecs 1 = [⟨[⟨0, 4, some 0⟩], 4, 4, 1024⟩] ∧
      TagReadInside .axdimm
        (readTags .axdimm (fun _ => 0) (fun _ => 0) (fun _ => 0) ⟨[⟨0, 4, some 0⟩], 4, 4, 1024⟩) 1024 := by
  have hexecs : ((taggedBatches 4).execGen .axdimm oneTable none).getPackExecs 1
      = [⟨[⟨0, 4, some 0⟩], 4, 4, 1024⟩] := by decide +kernel
  refine ⟨hexecs, ?_⟩
  exact (tagReadback_inside_iff (taggedBatches 4) oneTable none rfl rfl (by decide) 1 ⟨_, 4, 4, 1024⟩
    (by rw [hexecs]; exact List.mem_singleton.mpr rfl) _ _ _).mpr (by decide)

/-- **With 129 batches more is read than a tag buffer holds**, though the psum buffer has room for 512. -/
theorem tagReadback_exceeds :
    ((taggedBatches 129).execGen .axdimm oneTable none).getPackExecs 1 = [⟨[⟨0, 129, some 0⟩], 129, 129, 33024⟩] ∧
      (readTags .axdimm (fun _ => 0) (fun _ => 0) (fun _ => 0) ⟨[⟨0, 129, some 0⟩], 129, 129, 33024⟩).blockBytes
        = 132096 ∧
      Topology.axdimm.tagsSingleBufSize = 131072 ∧ ((taggedBatches 129).limits .axdimm none).maxFeatures = 512 := by
  refine ⟨by decide +kernel, ?_, by decide, by decide⟩
  rw [readTags_blockBytes]
  decide

end Pnm.Sls

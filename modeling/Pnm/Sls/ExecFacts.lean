import Mathlib.Algebra.Order.BigOperators.Group.List
import Mathlib.Algebra.Order.Group.Nat
import Pnm.Sls.ExecTrace

/-!
# `Sls.ExecFacts` — the executions an operation is planned into

`Plan` describes plans by their batches; this module restates them for an operation: which (table, batch)
pairs an execution covers (`ExecOk`), that over the executions of a pack every pair of its tables is covered
exactly once (`pack_keys`), and that different packs cover different pairs (`Planned.key_pack`).
-/

namespace Pnm.Sls

open Pnm.Lib

/-- The plan of an operation: `SparseReduction::init_exec_gen` on a fresh generator. -/
def SlsOperation.execGen (op : SlsOperation) (t : Topology) (layout : PacksToObjects) (env : Option BufDivider) :
    ExecutionGenerator :=
  freshGenerate t layout (op.limits t env) op.minibatchSize op.tablesSizes.length op.lengths

/-- An operation whose batches all look something up, on tables each in one pack, with room for a feature. -/
structure SlsOperation.Plannable (op : SlsOperation) (t : Topology) (layout : PacksToObjects) : Prop where
  placed : Placed t layout op.tablesSizes.length
  consistent : op.Consistent
  positive : ∀ l ∈ op.lengths, 0 < l
  features : 0 < t.psumSingleBufSize / op.sparseFtDataNb t

/-- What holds of one execution of pack `p`. -/
structure ExecOk (op : SlsOperation) (t : Topology) (layout : PacksToObjects) (env : Option BufDivider) (p : Nat)
    (e : Execution) : Prop where
  chunks : ∀ td ∈ e.tablesData, op.ChunkIn td
  nonempty : e.keys ≠ []
  tables : ∀ key ∈ e.keys, (∃ o ∈ layout p, o.id = key.1) ∧ key.2 < op.minibatchSize
  lookups : (e.keys.map op.lengthOf).sum ≤ (op.limits t env).maxInst
  batches : e.keys.length ≤ (op.limits t env).maxFeatures
  psumSize : e.psumSize = e.keys.length * op.sparseFtDataNb t

/-- A chunk of an execution fits the psum buffer. -/
theorem ExecOk.chunk_le {op : SlsOperation} {t : Topology} {layout : PacksToObjects} {env : Option BufDivider} {p : Nat}
    {e : Execution} (h : ExecOk op t layout env p e) {td : TableData} (htd : td ∈ e.tablesData) :
    td.tableBatchesChunk * op.sparseFtDataNb t ≤ t.psumSingleBufSize := by
  have hkeys : td.tableBatchesChunk ≤ e.keys.length := by
    rw [← Execution.sum_chunks_eq_length_keys]
    exact List.le_sum_of_mem (List.mem_map_of_mem htd)
  calc td.tableBatchesChunk * op.sparseFtDataNb t
      ≤ t.psumSingleBufSize / op.sparseFtDataNb t * op.sparseFtDataNb t :=
        Nat.mul_le_mul_right _ (hkeys.trans h.batches)
    _ ≤ t.psumSingleBufSize := Nat.div_mul_le_self _ _

theorem mem_keys_of_take {execs : List Execution} {n : Nat} {key : Nat × Nat}
    (h : key ∈ (execs.take n).flatMap Execution.keys) : key ∈ execs.flatMap Execution.keys := by
  obtain ⟨e, he, hin⟩ := List.mem_flatMap.mp h
  exact List.mem_flatMap.mpr ⟨e, List.mem_of_mem_take he, hin⟩

/-- The object that a lookup in a table finds. -/
theorem exists_find_object {objects : List MemoryObject} {id : Nat} (h : ∃ o ∈ objects, o.id = id) :
    ∃ o ∈ objects, o.id = id ∧ objects.find? (·.id == id) = some o := by
  obtain ⟨o', ho', hid'⟩ := h
  obtain ⟨o, hfind⟩ : ∃ o, objects.find? (·.id == id) = some o := by
    rw [← Option.isSome_iff_exists, List.find?_isSome]
    exact ⟨o', ho', by simpa using hid'⟩
  exact ⟨o, List.mem_of_find?_eq_some hfind, by simpa using List.find?_some hfind, hfind⟩

namespace SlsOperation

variable {op : SlsOperation} {t : Topology} {layout : PacksToObjects} {env : Option BufDivider} {p : Nat}

theorem Plannable.lengthsOk (h : op.Plannable t layout) :
    LengthsOk op.tablesSizes.length op.minibatchSize (op.limits t env).maxInst op.lengths :=
  ⟨h.consistent.lengths, fun _ hl => le_setInstrBufferSize env hl _⟩

/-- The plan gives every pack the blocks of its greedy cut. -/
theorem Plannable.execs (h : op.Plannable t layout) (hp : p ∈ t.packIdentifiers) :
    (op.execGen t layout env).getPackExecs p
      = plannedExecs layout (op.limits t env) op.minibatchSize op.lengths p :=
  (generate_planned h.placed fun _ hq =>
    tailHasLookups_of_pos h.placed h.consistent.lengths h.positive hq).2 p hp

/-- The pairs of a pack, in the order of its executions. -/
theorem Plannable.pack_keys (h : op.Plannable t layout) (hp : p ∈ t.packIdentifiers) :
    ((op.execGen t layout env).getPackExecs p).flatMap Execution.keys
      = (packBatches op.minibatchSize op.lengths (layout p)).map fun b => (b.table, b.idx) := by
  rw [h.execs hp, plannedExecs, planOf, planned_keys (h.placed.nodup_pack hp)]

theorem Plannable.nodup_pack_keys (h : op.Plannable t layout) (hp : p ∈ t.packIdentifiers) :
    (((op.execGen t layout env).getPackExecs p).flatMap Execution.keys).Nodup := by
  rw [h.pack_keys hp]
  exact nodup_packBatches_keys _ _ (h.placed.nodup_pack hp)

/-- Every pair of a table of the pack is covered. -/
theorem Plannable.mem_pack_keys (h : op.Plannable t layout) (hp : p ∈ t.packIdentifiers) {o : MemoryObject}
    (ho : o ∈ layout p) {i : Nat} (hi : i < op.minibatchSize) :
    (o.id, i) ∈ ((op.execGen t layout env).getPackExecs p).flatMap Execution.keys := by
  rw [h.pack_keys hp]
  exact mem_packBatches_keys ho hi

/-- **What holds of every execution of a plan.** -/
theorem Plannable.execOk (h : op.Plannable t layout) (hp : p ∈ t.packIdentifiers) {e : Execution}
    (he : e ∈ (op.execGen t layout env).getPackExecs p) : ExecOk op t layout env p e := by
  have hids := h.placed.nodup_pack hp
  rw [h.execs hp] at he
  obtain ⟨b, hb, rfl⟩ := List.mem_map.mp he
  have hadj := adjacent_of_mem_blocks hids hb
  have hkeys : (Execution.ofBlock (op.limits t env).sparseFeatureInBytes b).keys = b.map fun x => (x.table, x.idx) :=
    Execution.keys_ofBlock hadj
  have hmem : ∀ x ∈ b, x ∈ packBatches op.minibatchSize op.lengths (layout p) := by
    intro x hx
    rw [← plan_blocks_flatten (op.limits t env).maxInst (op.limits t env).maxFeatures
      (packBatches op.minibatchSize op.lengths (layout p))]
    exact List.mem_flatten.mpr ⟨b, hb, hx⟩
  have htables : ∀ key ∈ (Execution.ofBlock (op.limits t env).sparseFeatureInBytes b).keys,
      (∃ o ∈ layout p, o.id = key.1) ∧ key.2 < op.minibatchSize := by
    intro key hkey
    rw [hkeys] at hkey
    obtain ⟨x, hx, rfl⟩ := List.mem_map.mp hkey
    exact ⟨(mem_packBatches (hmem x hx)).1, (mem_packBatches (hmem x hx)).2.1⟩
  have hlim : lookupsOf b ≤ (op.limits t env).maxInst ∧ b.length ≤ (op.limits t env).maxFeatures :=
    block_le_limits h.features (h.lengthsOk.batch_le p) b hb
  have hlook : (b.map fun x => (x.table, x.idx)).map op.lengthOf = b.map (·.lookups) := by
    rw [List.map_map]
    exact List.map_congr_left fun x hx => ((mem_packBatches (hmem x hx)).2.2).symm
  constructor
  · intro td htd
    obtain ⟨hpos, -⟩ := (chunksOf_keys hadj).2.1 td htd
    -- the last batch of the chunk is a batch of the pack
    have hlast : (td.tableId, td.batchOffset.getD 0 + (td.tableBatchesChunk - 1)) ∈
        (Execution.ofBlock (op.limits t env).sparseFeatureInBytes b).keys := by
      refine List.mem_flatMap.mpr ⟨td, htd, TableData.mem_keys.mpr ⟨rfl, by simp, ?_⟩⟩
      simp only
      omega
    obtain ⟨⟨o, ho, hid⟩, hlt⟩ := htables _ hlast
    refine ⟨?_, ?_⟩
    · have := h.placed.id_lt hp ho
      simp only at hid
      omega
    · simp only [ChunkOk]
      simp only at hlt
      omega
  · rw [hkeys]
    simpa using block_ne_nil h.features (h.lengthsOk.batch_le p) b hb
  · exact htables
  · rw [hkeys, hlook]
    exact hlim.1
  · rw [hkeys, List.length_map]
    exact hlim.2
  · rw [hkeys, List.length_map]
    rfl

/-- A pair of the plan is one of a batch of the minibatch. -/
theorem Plannable.key_lt (h : op.Plannable t layout) (hp : p ∈ t.packIdentifiers) {key : Nat × Nat}
    (hkey : key ∈ ((op.execGen t layout env).getPackExecs p).flatMap Execution.keys) : key.2 < op.minibatchSize := by
  obtain ⟨e, he, hin⟩ := List.mem_flatMap.mp hkey
  exact ((h.execOk hp he).tables key hin).2

/-- The pairs of an execution come after those of the earlier executions and occur once. -/
theorem Plannable.keys_at (h : op.Plannable t layout) (hp : p ∈ t.packIdentifiers) {k : Nat} {e : Execution}
    (he : ((op.execGen t layout env).getPackExecs p)[k]? = some e) :
    e.keys.Nodup ∧
      ∀ key ∈ (((op.execGen t layout env).getPackExecs p).take k).flatMap Execution.keys, key ∉ e.keys := by
  have hnd : (((op.execGen t layout env).getPackExecs p).flatMap Execution.keys).Nodup := h.nodup_pack_keys hp
  refine ⟨(List.nodup_flatMap.mp hnd).1 e (List.mem_of_getElem? he), ?_⟩
  intro key hkey hin
  rw [← List.take_append_drop k ((op.execGen t layout env).getPackExecs p), List.flatMap_append] at hnd
  have hdrop : e ∈ ((op.execGen t layout env).getPackExecs p).drop k :=
    List.mem_of_getElem? (i := 0) (by simpa using he)
  exact (List.nodup_append.mp hnd).2.2 key hkey key (List.mem_flatMap.mpr ⟨e, hdrop, hin⟩) rfl

/-- A pair of an execution looks something up. -/
theorem Plannable.lengthOf_pos (h : op.Plannable t layout) (hp : p ∈ t.packIdentifiers) {e : Execution}
    (he : e ∈ (op.execGen t layout env).getPackExecs p) {key : Nat × Nat} (hkey : key ∈ e.keys) :
    0 < op.lengthOf key := by
  obtain ⟨⟨o, ho, hid⟩, hi⟩ := (h.execOk hp he).tables key hkey
  have hgrid : key.1 * op.minibatchSize + key.2 < op.lengths.length := by
    have h1 : (key.1 + 1) * op.minibatchSize ≤ op.tablesSizes.length * op.minibatchSize :=
      Nat.mul_le_mul_right _ (hid ▸ h.placed.id_lt hp ho)
    rw [h.consistent.lengths]
    rw [Nat.add_mul] at h1
    omega
  rw [SlsOperation.lengthOf, List.getD_eq_getElem?_getD, List.getElem?_eq_getElem hgrid, Option.getD_some]
  exact h.positive _ (List.getElem_mem hgrid)

/-- The instructions with output index `j` are the lookups of pair `j`. -/
theorem Plannable.filter_execIr (h : op.Plannable t layout) (hsum : op.SumsFit) (hp : p ∈ t.packIdentifiers)
    {e : Execution} (he : e ∈ (op.execGen t layout env).getPackExecs p) (hlt : e.keys.length < 2 ^ 32) (c j : Nat) :
    (op.execIr t (layout p) c e).filter (·.outputIndex == j)
      = match e.keys[j]? with
        | some key => (op.lookups key).map (op.lookupIr t (layout p) c key j)
        | none     => [] := by
  have hfilter : (op.chunksIr t (layout p) c e.tablesData 0).filter (·.outputIndex == 0 + j) = _ :=
    filter_chunksIr h.consistent hsum (h.execOk hp he).chunks (by rw [Execution.keys] at hlt; omega) j
  rw [Nat.zero_add] at hfilter
  exact hfilter

/-- Every (table, batch) pair belongs to some pack. -/
theorem Plannable.exists_pack (h : op.Plannable t layout) (env : Option BufDivider) {key : Nat × Nat}
    (hid : key.1 < op.tablesSizes.length) (hi : key.2 < op.minibatchSize) :
    ∃ p ∈ t.packIdentifiers, key ∈ ((op.execGen t layout env).getPackExecs p).flatMap Execution.keys := by
  obtain ⟨p, hp, hmem⟩ := List.mem_flatMap.mp (h.placed.mem_iff.mpr (List.mem_range.mpr hid))
  obtain ⟨o, ho, hoid⟩ := List.mem_map.mp hmem
  refine ⟨p, hp, ?_⟩
  rw [← show (o.id, key.2) = key from Prod.ext hoid rfl]
  exact h.mem_pack_keys hp ho hi

/-- Some pack of an operation that is not empty has executions. -/
theorem Plannable.exists_execs (h : op.Plannable t layout) (env : Option BufDivider) (htables : op.tablesSizes ≠ [])
    (hbatches : 0 < op.minibatchSize) : ∃ p ∈ t.packIdentifiers, (op.execGen t layout env).getPackExecs p ≠ [] := by
  have hfirst : ((0, 0) : Nat × Nat).1 < op.tablesSizes.length := List.length_pos_iff.mpr htables
  obtain ⟨p, hp, hkey⟩ := h.exists_pack env hfirst hbatches
  refine ⟨p, hp, fun hnil => ?_⟩
  simp [hnil] at hkey

/-- A pair belongs to one pack only. -/
theorem Plannable.key_pack (h : op.Plannable t layout) {q : Nat} (hp : p ∈ t.packIdentifiers)
    (hq : q ∈ t.packIdentifiers) {key : Nat × Nat}
    (hkp : key ∈ ((op.execGen t layout env).getPackExecs p).flatMap Execution.keys)
    (hkq : key ∈ ((op.execGen t layout env).getPackExecs q).flatMap Execution.keys) : p = q := by
  obtain ⟨e, he, hke⟩ := List.mem_flatMap.mp hkp
  obtain ⟨e', he', hke'⟩ := List.mem_flatMap.mp hkq
  obtain ⟨⟨o, ho, hid⟩, -⟩ := (h.execOk hp he).tables key hke
  obtain ⟨⟨o', ho', hid'⟩, -⟩ := (h.execOk hq he').tables key hke'
  exact h.placed.eq_of_id_eq hq hp ho' ho (hid.trans hid'.symm)

end SlsOperation

end Pnm.Sls

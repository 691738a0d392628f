import Mathlib.Algebra.Order.BigOperators.Group.List
import Mathlib.Algebra.Order.Group.Nat
import Pnm.Sls.Plan

/-!
# `Sls.PlanTotals` — what every plan keeps account of

`Plan` describes the plan of batches that all have lookups. With batches without lookups a pack can leave an
execution open, which then goes on with the tables of the next pack, so the executions are no longer cuts of one
pack. What still holds of them, whatever the lengths, is kept account of here: their totals are those of the
(table, batch) pairs they stand for and within both limits, and no pair is lost (`Totals`). Whether all of them have
lookups is a question about the greedy packing of all packs, where an open block without lookups is carried on
(`execs_pos_iff`).

The argument looks at the generator as if the chunk under construction were committed now: `pending` is the
execution under construction with that chunk's offset filled in, `planned` the counters it would leave. Adding a
batch to the current execution appends exactly the pair (table, number of batches planned of the table) to
`pending`, in all cases (`pending_addCurrent`), and committing changes neither.
-/

namespace Pnm.Sls

open Pnm.Lib

namespace ExecutionGenerator

variable (g : ExecutionGenerator)

/-- The execution under construction, with the offset of its last chunk filled in. -/
def pending : Execution := g.commitCurrent.currentExec

/-- The execution that committing now would append. -/
def closing : Execution := { g.pending with psumSize := g.pending.totalBatchesInChunks * g.sparseFeatureInBytes }

/-- The number of batches of a table that are in some execution, the one under construction included. -/
def planned (tableId : Nat) : Nat := g.commitCurrent.tablesBatches.getD tableId 0

variable {g} {tableId : Nat} (batchLookups : Nat)

theorem pending_same {chunks : List TableData} {td : TableData} (h : g.currentExec.tablesData = chunks ++ [td])
    (hid : td.tableId < g.tablesBatches.length) :
    (g.addCurrent td.tableId batchLookups).pending.keys
        = g.pending.keys ++ [(td.tableId, g.planned td.tableId)] ∧
      ∀ t, (g.addCurrent td.tableId batchLookups).planned t = g.planned t + if td.tableId = t then 1 else 0 := by
  unfold pending planned
  rw [addCurrent_same batchLookups h, commitCurrent_concat h, commitCurrent_concat rfl]
  constructor
  · -- the chunk is one batch longer
    simp only [Execution.keys, TableData.keys, List.flatMap_append, List.flatMap_singleton, Option.getD_some,
      List.range'_1_concat, List.map_append, List.map_singleton, List.append_assoc, getD_modify_self _ hid]
  · intro t
    by_cases ht : td.tableId = t
    · subst ht
      rw [if_pos rfl, getD_modify_self _ hid, getD_modify_self _ hid, Nat.add_assoc]
    · rw [if_neg ht, getD_modify_ne _ ht, getD_modify_ne _ ht]
      rfl

theorem pending_other (h : ∀ td, g.currentExec.tablesData.getLast? = some td → td.tableId ≠ tableId)
    (hid : tableId < g.tablesBatches.length) :
    (g.addCurrent tableId batchLookups).pending.keys = g.pending.keys ++ [(tableId, g.planned tableId)] ∧
      ∀ t, (g.addCurrent tableId batchLookups).planned t = g.planned t + if tableId = t then 1 else 0 := by
  rw [addCurrent_other batchLookups h]
  unfold planned
  set tb := g.commitCurrent.tablesBatches with htb
  have hlen : tableId < tb.length := by
    rw [htb, length_commitCurrent]
    exact hid
  unfold pending
  rw [commitCurrent_concat rfl]
  constructor
  · simp [Execution.keys, TableData.keys]
  · intro t
    dsimp only
    by_cases ht : tableId = t
    · subst ht
      rw [if_pos rfl, getD_modify_self _ hlen]
    · rw [if_neg ht, getD_modify_ne _ ht, Nat.add_zero]

/-- **A batch becomes the next pair of its table**, and the counters of the other tables stay. -/
theorem pending_addCurrent (hid : tableId < g.tablesBatches.length) :
    (g.addCurrent tableId batchLookups).pending.keys = g.pending.keys ++ [(tableId, g.planned tableId)] ∧
      ∀ t, (g.addCurrent tableId batchLookups).planned t = g.planned t + if tableId = t then 1 else 0 := by
  rcases g.lastChunk_cases tableId with h | ⟨chunks, td, hch, rfl⟩
  · exact pending_other batchLookups h hid
  · exact pending_same batchLookups hch hid

/-- Filling in an offset changes no total. -/
theorem pending_totals : g.pending.totalLookups = g.currentExec.totalLookups ∧
    g.pending.totalBatchesInChunks = g.currentExec.totalBatchesInChunks := by
  unfold pending
  rcases g.currentExec.tablesData.eq_nil_or_concat' with hnil | ⟨chunks, td, hch⟩
  · rw [commitCurrent_nil hnil]
    exact ⟨rfl, rfl⟩
  · rw [commitCurrent_concat hch]
    exact ⟨rfl, rfl⟩

theorem addCurrent_totals (tableId batchLookups : Nat) :
    (g.addCurrent tableId batchLookups).currentExec.totalLookups = g.currentExec.totalLookups + batchLookups ∧
    (g.addCurrent tableId batchLookups).currentExec.totalBatchesInChunks
      = g.currentExec.totalBatchesInChunks + 1 ∧
    (g.addCurrent tableId batchLookups).tablesBatches.length = g.tablesBatches.length := by
  rcases g.lastChunk_cases tableId with h | ⟨chunks, td, hch, rfl⟩
  · rw [addCurrent_other batchLookups h]
    exact ⟨rfl, rfl, g.length_commitCurrent⟩
  · rw [addCurrent_same batchLookups hch]
    exact ⟨rfl, rfl, rfl⟩

/-- Committing the current execution closes what is pending and keeps the counters. -/
theorem planned_commitExecution (pack t : Nat) : (g.commitCurrent.commitExecution pack).planned t = g.planned t := by
  unfold planned
  rw [commitCurrent_nil (show (g.commitCurrent.commitExecution pack).currentExec.tablesData = [] from rfl)]
  rfl

/-- The execution that is committed is the pending one. -/
theorem getPackExecs_commitExecution (pack q : Nat) :
    (g.commitCurrent.commitExecution pack).getPackExecs q
      = g.getPackExecs q ++ if q % 256 = pack % 256 then [g.closing] else [] := by
  unfold getPackExecs
  show Function.update g.execPacks (pack % 256) _ (q % 256) = _
  rw [Function.update_apply]
  split
  · rename_i hq
    rw [hq]
    rfl
  · rw [List.append_nil]

theorem pending_of_currentExec_nil (h : g.currentExec = {}) : g.pending = {} := by
  unfold pending
  rw [commitCurrent_nil (by rw [h]), h]

end ExecutionGenerator

/-! ## Totals -/

/-- The totals of an execution are those of its pairs, and within the limits. -/
structure Execution.Tallied (len : Nat × Nat → Nat) (lim : Limits) (e : Execution) : Prop where
  lookups : e.totalLookups = (e.keys.map len).sum
  batches : e.totalBatchesInChunks = e.keys.length
  lookups_le : e.totalLookups ≤ lim.maxInst
  batches_le : e.totalBatchesInChunks ≤ lim.maxFeatures

/-- **The account of a generator** that has planned the batches `done`. -/
structure Totals (packs : List Nat) (layout : PacksToObjects) (lim : Limits) (numTables : Nat)
    (len : Nat × Nat → Nat) (done : List Batch) (g : ExecutionGenerator) : Prop where
  layout_eq : g.tablesLayout = layout
  maxInst : g.maxInstInBuf = lim.maxInst
  maxFeatures : g.maxFeaturesInBuf = lim.maxFeatures
  sparse : g.sparseFeatureInBytes = lim.sparseFeatureInBytes
  length : g.tablesBatches.length = numTables
  planned : ∀ t, g.planned t = countTable t done
  pending : g.pending.Tallied len lim
  committed : ∀ p, ∀ e ∈ g.getPackExecs p,
    e.Tallied len lim ∧ e.psumSize = e.totalBatchesInChunks * lim.sparseFeatureInBytes
  found : ∀ b ∈ done, (b.table, b.idx) ∈ g.pending.keys ∨
    ∃ p ∈ packs, ∃ e ∈ g.getPackExecs p, (b.table, b.idx) ∈ e.keys

section Totals

open ExecutionGenerator

variable {packs : List Nat} {layout : PacksToObjects} {lim : Limits} {numTables : Nat} {len : Nat × Nat → Nat}
  {done : List Batch} {g : ExecutionGenerator} {b : Batch} {p : Nat}

theorem Totals.addCurrent (h : Totals packs layout lim numTables len done g) (htable : b.table < numTables)
    (hidx : b.idx = countTable b.table done) (hlen : b.lookups = len (b.table, b.idx))
    (hinst : g.currentExec.totalLookups + b.lookups ≤ lim.maxInst)
    (hfeat : g.currentExec.totalBatchesInChunks + 1 ≤ lim.maxFeatures) :
    Totals packs layout lim numTables len (done ++ [b]) (g.addCurrent b.table b.lookups) := by
  have hin : b.table < g.tablesBatches.length := by rwa [h.length]
  obtain ⟨hkeys, hplanned⟩ := pending_addCurrent b.lookups hin
  obtain ⟨hlookups, hbatches, hlength⟩ := addCurrent_totals (g := g) b.table b.lookups
  obtain ⟨hpl, hpb⟩ := pending_totals (g := g.addCurrent b.table b.lookups)
  obtain ⟨hgl, hgb⟩ := pending_totals (g := g)
  rw [h.planned, ← hidx] at hkeys
  constructor
  · exact h.layout_eq
  · exact h.maxInst
  · exact h.maxFeatures
  · exact h.sparse
  · rw [hlength, h.length]
  · intro t
    rw [hplanned, h.planned, countTable_append, countTable_singleton]
  · constructor
    · rw [hpl, hlookups, hkeys, List.map_append, List.sum_append, ← h.pending.lookups, hgl, hlen]
      simp
    · rw [hpb, hbatches, hkeys, List.length_append, ← h.pending.batches, hgb, List.length_singleton]
    · rw [hpl, hlookups]
      exact hinst
    · rw [hpb, hbatches]
      exact hfeat
  · exact h.committed
  · intro x hx
    rw [hkeys]
    rcases List.mem_append.mp hx with hx | hx
    · rcases h.found x hx with hpend | hcomm
      · exact .inl (List.mem_append_left _ hpend)
      · exact .inr hcomm
    · rw [List.mem_singleton.mp hx]
      exact .inl (List.mem_append_right _ (List.mem_singleton.mpr rfl))

theorem Totals.commitExecution (h : Totals packs layout lim numTables len done g) (hp : p ∈ packs) :
    Totals packs layout lim numTables len done (g.commitCurrent.commitExecution p) := by
  have hpending : (g.commitCurrent.commitExecution p).pending = {} := pending_of_currentExec_nil rfl
  constructor
  · exact h.layout_eq
  · exact h.maxInst
  · exact h.maxFeatures
  · exact h.sparse
  · exact g.length_commitCurrent.trans h.length
  · intro t
    rw [planned_commitExecution, h.planned]
  · rw [hpending]
    exact ⟨rfl, rfl, Nat.zero_le _, Nat.zero_le _⟩
  · intro q x hx
    rw [getPackExecs_commitExecution, List.mem_append] at hx
    rcases hx with hx | hx
    · exact h.committed q x hx
    · split at hx
      · rw [List.mem_singleton.mp hx]
        refine ⟨⟨h.pending.lookups, h.pending.batches, h.pending.lookups_le, h.pending.batches_le⟩, ?_⟩
        rw [← h.sparse]
        rfl
      · cases hx
  · intro x hx
    right
    rcases h.found x hx with hpend | ⟨q, hq, x', hx', hmem⟩
    · refine ⟨p, hp, g.closing, ?_, hpend⟩
      rw [getPackExecs_commitExecution, if_pos rfl]
      exact List.mem_append_right _ (List.mem_singleton.mpr rfl)
    · refine ⟨q, hq, x', ?_, hmem⟩
      rw [getPackExecs_commitExecution]
      exact List.mem_append_left _ hx'

/-- **The batch step.** -/
theorem Totals.generateBatch (h : Totals packs layout lim numTables len done g) (hp : p ∈ packs)
    (hF : 0 < lim.maxFeatures) (htable : b.table < numTables)
    (hidx : b.idx = countTable b.table done) (hlen : b.lookups = len (b.table, b.idx)) (hle : b.lookups ≤ lim.maxInst) :
    Totals packs layout lim numTables len (done ++ [b]) (g.generateBatch p b.table b.lookups) := by
  rw [generateBatch_eq, h.maxInst, h.maxFeatures]
  split
  · rename_i hfits
    exact h.addCurrent htable hidx hlen hfits.1 hfits.2
  · have hempty : (g.commitCurrent.commitExecution p).currentExec = {} := rfl
    apply (h.commitExecution hp).addCurrent htable hidx hlen
    · rw [hempty]
      simpa using hle
    · rw [hempty]
      exact hF

/-- **The batch run.** -/
theorem Totals.foldl_generateBatch (hp : p ∈ packs) (hF : 0 < lim.maxFeatures) {bs : List Batch}
    (hbs : ∀ b ∈ bs, b.table < numTables ∧ b.lookups = len (b.table, b.idx) ∧ b.lookups ≤ lim.maxInst) :
    ∀ {g : ExecutionGenerator} {done : List Batch}, Totals packs layout lim numTables len done g → Indexed done bs →
      Totals packs layout lim numTables len (done ++ bs)
        (bs.foldl (fun g b => g.generateBatch p b.table b.lookups) g) := by
  induction bs with
  | nil =>
      intro g done h _
      rw [List.append_nil]
      exact h
  | cons b bs ih =>
      intro g done h hidx
      obtain ⟨htable, hlen, hle⟩ := hbs b (by simp)
      have hstep := h.generateBatch hp hF htable hidx.1 hlen hle
      have hrun := ih (fun x hx => hbs x (by simp [hx])) hstep hidx.2
      rwa [List.append_assoc] at hrun

/-- Committing what a pack leaves open. -/
theorem Totals.commitLast (h : Totals packs layout lim numTables len done g) (hp : p ∈ packs) :
    Totals packs layout lim numTables len done (g.commitLast p) := by
  unfold ExecutionGenerator.commitLast
  split
  · exact h.commitExecution hp
  · exact h

/-- **The pack run.** -/
theorem Totals.foldl_generatePack {mb : Nat} {lengths : List Nat} (hF : 0 < lim.maxFeatures) {todo : List Nat}
    (htodo : ∀ p ∈ todo, p ∈ packs)
    (hbs : ∀ b ∈ todo.flatMap fun p => packBatches mb lengths (layout p),
      b.table < numTables ∧ b.lookups = len (b.table, b.idx) ∧ b.lookups ≤ lim.maxInst) :
    ∀ {g : ExecutionGenerator} {done : List Batch}, Totals packs layout lim numTables len done g →
      Indexed done (todo.flatMap fun p => packBatches mb lengths (layout p)) →
      Totals packs layout lim numTables len (done ++ todo.flatMap fun p => packBatches mb lengths (layout p))
        (todo.foldl (generatePack mb lengths) g) := by
  induction todo with
  | nil =>
      intro g done h _
      rw [List.flatMap_nil, List.append_nil]
      exact h
  | cons p todo ih =>
      intro g done h hidx
      rw [List.flatMap_cons] at hidx hbs ⊢
      obtain ⟨hpack, hrest⟩ := indexed_append.mp hidx
      have hp := htodo p (by simp)
      have hstep : Totals packs layout lim numTables len (done ++ packBatches mb lengths (layout p))
          (g.generatePack mb lengths p) := by
        unfold generatePack
        rw [foldl_generateTable, h.layout_eq]
        apply Totals.commitLast _ hp
        exact Totals.foldl_generateBatch hp hF (fun b hb => hbs b (by simp [hb])) h hpack
      rw [← List.append_assoc]
      exact ih (fun q hq => htodo q (by simp [hq])) (fun b hb => hbs b (List.mem_append_right _ hb)) hstep hrest

end Totals

/-! ## A whole operation -/

section Fresh

variable {t : Topology} {layout : PacksToObjects} {lim : Limits} {mb numTables : Nat} {lengths : List Nat}

/-- All batches, in the order they are planned. -/
theorem flatMap_packBatches (packs : List Nat) :
    (packs.flatMap fun p => packBatches mb lengths (layout p)) = packBatches mb lengths (packs.flatMap layout) := by
  unfold packBatches
  rw [List.flatMap_assoc]

theorem map_id_flatMap (packs : List Nat) :
    (packs.flatMap layout).map (·.id) = packs.flatMap fun p => (layout p).map (·.id) :=
  List.map_flatMap

theorem mem_packBatches_placed (hpl : Placed t layout numTables) {b : Batch}
    (hb : b ∈ packBatches mb lengths (t.packIdentifiers.flatMap layout)) :
    b.table < numTables ∧ b.idx < mb ∧ b.lookups = lengths.getD (b.table * mb + b.idx) 0 := by
  obtain ⟨⟨o, ho, hid⟩, hidx, hlook⟩ := mem_packBatches hb
  obtain ⟨p, hp, ho⟩ := List.mem_flatMap.mp ho
  exact ⟨hid ▸ hpl.id_lt hp ho, hidx, hlook⟩

/-- A generator before its first pack has planned nothing. -/
theorem totals_start {packs : List Nat} {len : Nat × Nat → Nat} :
    Totals packs layout lim numTables len []
      { ExecutionGenerator.init layout lim.maxInst lim.maxFeatures lim.sparseFeatureInBytes with
        tablesBatches := ExecutionGenerator.resize [] numTables
        execPacks := fun _ => [] } := by
  constructor
  · rfl
  · rfl
  · rfl
  · rfl
  · simp
  · intro tableId
    unfold ExecutionGenerator.planned
    rw [ExecutionGenerator.commitCurrent_nil rfl]
    show (ExecutionGenerator.resize [] numTables).getD tableId 0 = 0
    rw [ExecutionGenerator.resize_nil, List.getD_eq_getElem?_getD, List.getElem?_replicate]
    split
    · rfl
    · rfl
  · rw [ExecutionGenerator.pending_of_currentExec_nil rfl]
    exact ⟨rfl, rfl, Nat.zero_le _, Nat.zero_le _⟩
  · intro p e he
    cases he
  · intro b hb
    cases hb

/-- **The account of a fresh plan**: every batch of every table is planned. -/
theorem totals_freshGenerate (mb : Nat) (hpl : Placed t layout numTables) (hF : 0 < lim.maxFeatures)
    (hlen : ∀ l ∈ lengths, l ≤ lim.maxInst) :
    Totals t.packIdentifiers layout lim numTables (fun key => lengths.getD (key.1 * mb + key.2) 0)
      (packBatches mb lengths (t.packIdentifiers.flatMap layout))
      (freshGenerate t layout lim mb numTables lengths) := by
  have hbs : ∀ b ∈ packBatches mb lengths (t.packIdentifiers.flatMap layout),
      b.table < numTables ∧ b.lookups = lengths.getD (b.table * mb + b.idx) 0 ∧ b.lookups ≤ lim.maxInst := by
    intro b hb
    obtain ⟨htable, -, hlook⟩ := mem_packBatches_placed hpl hb
    refine ⟨htable, hlook, ?_⟩
    rw [hlook, List.getD_eq_getElem?_getD]
    cases hl : lengths[b.table * mb + b.idx]? with
    | none   => exact Nat.zero_le _
    | some l => exact hlen l (List.mem_of_getElem? hl)
  have hindexed : Indexed [] (packBatches mb lengths (t.packIdentifiers.flatMap layout)) := by
    apply indexed_packBatches
    · rw [map_id_flatMap]
      exact hpl.nodup
    · intro o _
      rfl
  rw [← flatMap_packBatches] at hbs hindexed ⊢
  exact Totals.foldl_generatePack hF (fun p hp => hp) hbs totals_start hindexed

theorem countTable_packBatches (tableId : Nat) (objs : List MemoryObject) :
    countTable tableId (packBatches mb lengths objs) = (objs.map (·.id)).count tableId * mb := by
  induction objs with
  | nil => simp [packBatches]
  | cons o objs ih =>
      have hcons : packBatches mb lengths (o :: objs)
          = tableBatches mb lengths o.id ++ packBatches mb lengths objs := List.flatMap_cons
      rw [hcons, countTable_append, ih, List.map_cons, List.count_cons, Nat.add_mul, Nat.add_comm]
      congr 1
      by_cases ho : o.id = tableId
      · simp [ho, tableBatches, countTable, Function.comp_def]
      · rw [countTable_tableBatches ho]
        simp [ho]

/-- Every table of a fresh plan has all its batches planned. -/
theorem planned_freshGenerate (hpl : Placed t layout numTables) (hF : 0 < lim.maxFeatures)
    (hlen : ∀ l ∈ lengths, l ≤ lim.maxInst) {tableId : Nat} (ht : tableId < numTables) :
    (freshGenerate t layout lim mb numTables lengths).planned tableId = mb := by
  have hcount : ((t.packIdentifiers.flatMap layout).map (·.id)).count tableId = 1 := by
    rw [map_id_flatMap, List.Perm.count_eq hpl]
    exact List.count_eq_one_of_mem List.nodup_range (List.mem_range.mpr ht)
  rw [(totals_freshGenerate mb hpl hF hlen).planned, countTable_packBatches, hcount, Nat.one_mul]

/-- `generate` leaves no lookups in the current execution. -/
theorem currentExec_freshGenerate :
    (freshGenerate t layout lim mb numTables lengths).currentExec.totalLookups = 0 := by
  have hpack : ∀ (g : ExecutionGenerator) (p : Nat), (g.generatePack mb lengths p).currentExec.totalLookups = 0 := by
    intro g p
    unfold ExecutionGenerator.generatePack ExecutionGenerator.commitLast
    split
    · rfl
    · rename_i h
      exact not_not.mp h
  have hrun : ∀ (packs : List Nat) (g : ExecutionGenerator), g.currentExec.totalLookups = 0 →
      (packs.foldl (ExecutionGenerator.generatePack mb lengths) g).currentExec.totalLookups = 0 := by
    intro packs
    induction packs with
    | nil => exact fun g h => h
    | cons p packs ih => exact fun g _ => ih _ (hpack g p)
  exact hrun _ _ rfl

/-- **No lookup is lost**: a pair with lookups is in an execution of some pack. -/
theorem exists_exec_of_pos (hpl : Placed t layout numTables) (hF : 0 < lim.maxFeatures)
    (hlen : ∀ l ∈ lengths, l ≤ lim.maxInst) {key : Nat × Nat} (htable : key.1 < numTables) (hidx : key.2 < mb)
    (hpos : 0 < lengths.getD (key.1 * mb + key.2) 0) :
    ∃ p ∈ t.packIdentifiers, ∃ e ∈ (freshGenerate t layout lim mb numTables lengths).getPackExecs p,
      key ∈ e.keys := by
  have h := totals_freshGenerate mb hpl hF hlen
  obtain ⟨p, hp, hmem⟩ := List.mem_flatMap.mp (hpl.mem_iff.mpr (List.mem_range.mpr htable))
  obtain ⟨o, ho, hid⟩ := List.mem_map.mp hmem
  have hbatch : (⟨key.1, key.2, lengths.getD (key.1 * mb + key.2) 0⟩ : Batch) ∈
      packBatches mb lengths (t.packIdentifiers.flatMap layout) := by
    apply List.mem_flatMap.mpr
    refine ⟨o, List.mem_flatMap.mpr ⟨p, hp, ho⟩, List.mem_map.mpr ⟨key.2, List.mem_range.mpr hidx, ?_⟩⟩
    rw [hid]
  rcases h.found _ hbatch with hpend | hcomm
  · -- what is still pending has no lookups at all
    exfalso
    have hzero := h.pending.lookups
    rw [ExecutionGenerator.pending_totals.1, currentExec_freshGenerate] at hzero
    have hmem := List.mem_map_of_mem (f := fun key : Nat × Nat => lengths.getD (key.1 * mb + key.2) 0) hpend
    have hle := List.le_sum_of_mem hmem
    rw [← hzero] at hle
    exact absurd hpos (Nat.not_lt.mpr hle)
  · exact hcomm

end Fresh

/-! ## The greedy packing of all packs -/

section Packing

open ExecutionGenerator

variable (lim : Limits)

/-- One more pack of a greedy packing: what a pack leaves open without lookups goes on with the next pack. -/
def packingStep (c : Cut Batch) (bs : List Batch) : Cut Batch :=
  let c := bs.foldl (Cut.add (fits lim.maxInst lim.maxFeatures)) c
  if lookupsOf c.opened ≠ 0 then ⟨c.closed ++ [c.opened], []⟩ else c

/-- **The greedy packing** of the batches of all packs. -/
def packing (packs : List Nat) (layout : PacksToObjects) (mb : Nat) (lengths : List Nat) : Cut Batch :=
  packs.foldl (fun c p => packingStep lim c (packBatches mb lengths (layout p))) {}

/-- A generator and the packing agree on the totals of what is open, and on whether all that is closed has
    lookups. -/
structure Packed (packs : List Nat) (layout : PacksToObjects) (g : ExecutionGenerator) (c : Cut Batch) : Prop where
  layout_eq : g.tablesLayout = layout
  maxInst : g.maxInstInBuf = lim.maxInst
  maxFeatures : g.maxFeaturesInBuf = lim.maxFeatures
  lookups : g.currentExec.totalLookups = lookupsOf c.opened
  batches : g.currentExec.totalBatchesInChunks = c.opened.length
  closed : (∀ p ∈ packs, ∀ e ∈ g.getPackExecs p, 0 < e.totalLookups) ↔ ∀ b ∈ c.closed, 0 < lookupsOf b

variable {lim} {packs : List Nat} {layout : PacksToObjects} {g : ExecutionGenerator} {c : Cut Batch} {p : Nat}

theorem Packed.addCurrent (h : Packed lim packs layout g c) (b : Batch) :
    Packed lim packs layout (g.addCurrent b.table b.lookups) ⟨c.closed, c.opened ++ [b]⟩ := by
  obtain ⟨hlookups, hbatches, -⟩ := addCurrent_totals (g := g) b.table b.lookups
  constructor
  · exact h.layout_eq
  · exact h.maxInst
  · exact h.maxFeatures
  · rw [hlookups, h.lookups]
    simp
  · rw [hbatches, h.batches]
    simp
  · exact h.closed

theorem Packed.commitExecution (h : Packed lim packs layout g c) (hp : p ∈ packs) :
    Packed lim packs layout (g.commitCurrent.commitExecution p) ⟨c.closed ++ [c.opened], []⟩ := by
  have hclosing : g.closing.totalLookups = lookupsOf c.opened := pending_totals.1.trans h.lookups
  constructor
  · exact h.layout_eq
  · exact h.maxInst
  · exact h.maxFeatures
  · rfl
  · rfl
  · simp only [getPackExecs_commitExecution, List.forall_mem_append, List.forall_mem_singleton, ← h.closed]
    constructor
    · intro hall
      refine ⟨fun q hq => (hall q hq).1, ?_⟩
      rw [← hclosing]
      exact (hall p hp).2 _ (by simp)
    · rintro ⟨hold, hnew⟩ q hq
      refine ⟨hold q hq, fun e he => ?_⟩
      split at he
      · rw [List.mem_singleton.mp he, hclosing]
        exact hnew
      · cases he

/-- **The batch step.** -/
theorem Packed.generateBatch (h : Packed lim packs layout g c) (hp : p ∈ packs) (b : Batch) :
    Packed lim packs layout (g.generateBatch p b.table b.lookups)
      (c.add (fits lim.maxInst lim.maxFeatures) b) := by
  rw [generateBatch_eq, h.maxInst, h.maxFeatures, h.lookups, h.batches]
  by_cases hfits : lookupsOf c.opened + b.lookups ≤ lim.maxInst ∧ c.opened.length + 1 ≤ lim.maxFeatures
  · rw [if_pos hfits, Cut.add_fits (decide_eq_true hfits)]
    exact h.addCurrent b
  · rw [if_neg hfits, Cut.add_not_fits (decide_eq_false hfits)]
    exact (h.commitExecution hp).addCurrent b

/-- **The pack step**: the batches one by one, then what is left open. -/
theorem Packed.generatePack {mb : Nat} {lengths : List Nat} (h : Packed lim packs layout g c) (hp : p ∈ packs) :
    Packed lim packs layout (g.generatePack mb lengths p)
      (packingStep lim c (packBatches mb lengths (layout p))) := by
  have hbatches : ∀ bs : List Batch, Packed lim packs layout
      (bs.foldl (fun g b => g.generateBatch p b.table b.lookups) g)
      (bs.foldl (Cut.add (fits lim.maxInst lim.maxFeatures)) c) := by
    intro bs
    induction bs using List.reverseRecOn with
    | nil => exact h
    | append_singleton bs b ih =>
        rw [List.foldl_concat, List.foldl_concat]
        exact ih.generateBatch hp b
  have hrun := hbatches (packBatches mb lengths (layout p))
  unfold ExecutionGenerator.generatePack commitLast packingStep
  rw [foldl_generateTable, h.layout_eq, hrun.lookups]
  dsimp only
  split
  · exact hrun.commitExecution hp
  · exact hrun

/-- **Every execution has lookups exactly if every block of the packing has.** -/
theorem execs_pos_iff {t : Topology} {mb numTables : Nat} {lengths : List Nat} :
    (∀ p ∈ t.packIdentifiers, ∀ e ∈ (freshGenerate t layout lim mb numTables lengths).getPackExecs p,
      0 < e.totalLookups) ↔
      ∀ b ∈ (packing lim t.packIdentifiers layout mb lengths).closed, 0 < lookupsOf b := by
  have hrun : ∀ todo : List Nat, (∀ p ∈ todo, p ∈ t.packIdentifiers) → ∀ g c, Packed lim t.packIdentifiers layout g c →
      Packed lim t.packIdentifiers layout (todo.foldl (ExecutionGenerator.generatePack mb lengths) g)
        (todo.foldl (fun c p => packingStep lim c (packBatches mb lengths (layout p))) c) := by
    intro todo htodo
    induction todo with
    | nil => exact fun _ _ h => h
    | cons p todo ih =>
        intro g c h
        exact ih (fun q hq => htodo q (List.mem_cons_of_mem _ hq)) _ _ (h.generatePack (htodo p List.mem_cons_self))
  have hstart : Packed lim t.packIdentifiers layout
      { ExecutionGenerator.init layout lim.maxInst lim.maxFeatures lim.sparseFeatureInBytes with
        tablesBatches := resize [] numTables
        execPacks := fun _ => [] } {} :=
    ⟨rfl, rfl, rfl, rfl, rfl, iff_of_true (fun _ _ _ he => absurd he List.not_mem_nil)
      fun _ hb => absurd hb List.not_mem_nil⟩
  exact (hrun _ (fun _ hp => hp) _ _ hstart).closed

end Packing

end Pnm.Sls

import Mathlib.Data.List.Chain
import Pnm.Sls.PlanSim

/-!
# `Sls.Plan` — what a freshly initialised generator plans

`PlanSim` shows that one pack is planned as the greedy cut of its batches. Here the packs are put together:
`generate_planned` gives the executions of every pack as the blocks of its plan, provided the last block of
each pack has a lookup. From that follow the exact partition of every table's minibatch
(`generate_partition`), and the exact condition under which batches without lookups stay in their own pack
(`generate_coversAll_iff`).
-/

namespace Pnm.Sls

open Pnm.Lib

/-! ## Chunks against batches -/

/-- The (table, batch) pairs a chunk stands for. -/
def TableData.keys (td : TableData) : List (Nat × Nat) :=
  (List.range' (td.batchOffset.getD 0) td.tableBatchesChunk).map (td.tableId, ·)

/-- Neighbouring batches of one table have neighbouring numbers. -/
def Adjacent (bs : List Batch) : Prop :=
  bs.IsChain fun a b => a.table = b.table → b.idx = a.idx + 1

theorem Indexed.adjacent {bs : List Batch} : ∀ {pre : List Batch}, Indexed pre bs → Adjacent bs := by
  induction bs with
  | nil => intro _ _; exact List.isChain_nil
  | cons a bs ih =>
      intro pre h
      cases bs with
      | nil => exact List.isChain_singleton a
      | cons b bs =>
          refine List.isChain_cons_cons.mpr ⟨fun hab => ?_, ih h.2⟩
          have h1 := h.1
          have h2 := h.2.1
          rw [countTable_append, countTable_singleton, if_pos hab, ← hab, ← h1] at h2
          exact h2

/-- **The chunks of a block, written out, are its batches in order**; every chunk has an offset and is not
    empty. -/
theorem chunksOf_keys {bs : List Batch} (h : Adjacent bs) :
    (chunksOf bs).flatMap TableData.keys = bs.map (fun b => (b.table, b.idx)) ∧
    (∀ td ∈ chunksOf bs, 0 < td.tableBatchesChunk ∧ td.batchOffset.isSome) ∧
    (∀ td, (chunksOf bs).getLast? = some td → ∃ b, bs.getLast? = some b ∧ b.table = td.tableId ∧
      td.batchOffset.getD 0 + td.tableBatchesChunk = b.idx + 1) := by
  induction bs using List.reverseRecOn with
  | nil => simp
  | append_singleton bs b ih =>
      obtain ⟨hkeys, hpos, hlast⟩ := ih (List.isChain_append.mp h).1
      rw [chunksOf_concat]
      rcases (chunksOf bs).eq_nil_or_concat' with hnil | ⟨l, td, hch⟩
      · have hbs : bs = [] := chunksOf_eq_nil.mp hnil
        subst hbs
        simp [pushBatch, TableData.keys]
      · obtain ⟨b', hb', htab, hend⟩ := hlast td (by simp [hch])
        by_cases htd : td.tableId = b.table
        · -- the open chunk grows by the batch that follows its last one
          have hidx : b.idx = b'.idx + 1 :=
            (List.isChain_append.mp h).2.2 b' hb' b (by simp) (htab.trans htd)
          rw [hch, pushBatch_concat_same htd]
          refine ⟨?_, ?_, ?_⟩
          · rw [hch] at hkeys
            simp only [List.flatMap_append, List.flatMap_singleton, List.map_append, List.map_singleton] at hkeys ⊢
            rw [← hkeys, List.append_assoc]
            congr 1
            simp only [TableData.keys, List.range'_1_concat, List.map_append, List.map_singleton, htd, hend, hidx]
          · intro x hx
            rcases List.mem_append.mp hx with hx | hx
            · exact hpos x (by simp [hch, hx])
            · rw [List.mem_singleton.mp hx]
              exact ⟨Nat.succ_pos _, (hpos td (by simp [hch])).2⟩
          · intro x hx
            obtain rfl := by simpa using hx
            exact ⟨b, by simp, htd.symm, by simp only; omega⟩
        · rw [hch, pushBatch_concat_other htd, ← hch]
          refine ⟨?_, ?_, ?_⟩
          · rw [List.flatMap_append, hkeys]
            simp [TableData.keys]
          · intro x hx
            rcases List.mem_append.mp hx with hx | hx
            · exact hpos x hx
            · rw [List.mem_singleton.mp hx]
              simp
          · intro x hx
            obtain rfl := by simpa using hx
            exact ⟨b, by simp, rfl, rfl⟩

/-- The (table, batch) pairs an execution stands for, in the order of its psum buffer. -/
def Execution.keys (e : Execution) : List (Nat × Nat) := e.tablesData.flatMap TableData.keys

theorem Execution.keys_ofBlock {sf : Nat} {bs : List Batch} (h : Adjacent bs) :
    (Execution.ofBlock sf bs).keys = bs.map (fun b => (b.table, b.idx)) := (chunksOf_keys h).1

theorem Execution.sum_chunks_eq_length_keys (e : Execution) :
    (e.tablesData.map (·.tableBatchesChunk)).sum = e.keys.length := by
  simp [Execution.keys, List.length_flatMap, TableData.keys]

/-- The chunks of table `id` in a list of executions, in execution order. -/
def chunksOfTable (id : Nat) (execs : List Execution) : List TableData :=
  execs.flatMap fun e => e.tablesData.filter (·.tableId == id)

theorem expand_filter (id : Nat) (l : List TableData) :
    (l.filter (·.tableId == id)).flatMap (fun td => List.range' (td.batchOffset.getD 0) td.tableBatchesChunk)
      = ((l.flatMap TableData.keys).filter (·.1 == id)).map (·.2) := by
  induction l with
  | nil => rfl
  | cons td l ih =>
      by_cases h : td.tableId = id <;>
        simp [TableData.keys, h, ih, List.filter_map, Function.comp_def]

/-- The batches of table `id`, read off the chunks recorded for it. -/
theorem expand_chunksOfTable (id : Nat) (execs : List Execution) :
    (chunksOfTable id execs).flatMap (fun td => List.range' (td.batchOffset.getD 0) td.tableBatchesChunk)
      = ((execs.flatMap Execution.keys).filter (·.1 == id)).map (·.2) := by
  induction execs with
  | nil => rfl
  | cons e execs ih =>
      have := expand_filter id e.tablesData
      simp only [chunksOfTable, List.flatMap_cons, List.flatMap_append, List.filter_append,
        List.map_append] at ih ⊢
      rw [this, ih]
      rfl

/-! ## The executions of one plan -/

section OnePack

variable {mb : Nat} {lengths : List Nat} {objs : List MemoryObject} {maxInst maxFeatures sf : Nat}

theorem mem_packBatches {b : Batch} (h : b ∈ packBatches mb lengths objs) :
    (∃ o ∈ objs, o.id = b.table) ∧ b.idx < mb ∧ b.lookups = lengths.getD (b.table * mb + b.idx) 0 := by
  obtain ⟨o, ho, hb⟩ := List.mem_flatMap.mp h
  obtain ⟨i, hi, rfl⟩ := List.mem_map.mp hb
  exact ⟨⟨o, ho, rfl⟩, List.mem_range.mp hi, rfl⟩

theorem filter_packBatches {id : Nat} (hnd : (objs.map (·.id)).Nodup) (hid : id ∈ objs.map (·.id)) :
    (packBatches mb lengths objs).filter (·.table == id) = tableBatches mb lengths id := by
  have hself : (tableBatches mb lengths id).filter (·.table == id) = tableBatches mb lengths id := by
    simp [tableBatches]
  have hother : ∀ j, j ≠ id → (tableBatches mb lengths j).filter (·.table == id) = [] := by
    intro j hj
    simp [tableBatches, hj]
  induction objs with
  | nil => simp at hid
  | cons o objs ih =>
      rw [List.map_cons, List.nodup_cons] at hnd
      rw [packBatches, List.flatMap_cons, List.filter_append]
      rcases List.mem_cons.mp hid with rfl | hid'
      · -- the table itself; no later object has its id
        have hrest : (objs.flatMap fun obj => tableBatches mb lengths obj.id).filter (·.table == o.id) = [] := by
          rw [List.filter_flatMap, List.flatMap_eq_nil_iff]
          intro o' ho'
          exact hother o'.id fun h => hnd.1 (List.mem_map.mpr ⟨o', ho', h⟩)
        rw [hself, hrest, List.append_nil]
      · rw [hother o.id fun h => hnd.1 (h ▸ hid'), List.nil_append]
        exact ih hnd.2 hid'

/-- The blocks of a plan are the batches of the pack, cut. -/
theorem plan_blocks_flatten (maxInst maxFeatures : Nat) (bs : List Batch) :
    (plan maxInst maxFeatures bs).blocks.flatten = bs := by
  rw [Cut.blocks_flatten, plan, Cut.run_all]

theorem adjacent_of_mem_blocks (hnd : (objs.map (·.id)).Nodup) {b : List Batch}
    (hb : b ∈ (plan maxInst maxFeatures (packBatches mb lengths objs)).blocks) : Adjacent b := by
  have hidx : Indexed [] (packBatches mb lengths objs) := indexed_packBatches hnd (by simp)
  have hall := hidx.adjacent
  rw [← plan_blocks_flatten maxInst maxFeatures (packBatches mb lengths objs)] at hall
  exact hall.infix (List.infix_of_mem_flatten hb)

/-- The pairs a planned pack covers, in order: every batch of every table, once. -/
theorem planned_keys (hnd : (objs.map (·.id)).Nodup) :
    ((plan maxInst maxFeatures (packBatches mb lengths objs)).blocks.map (Execution.ofBlock sf)).flatMap
        Execution.keys
      = (packBatches mb lengths objs).map fun b => (b.table, b.idx) := by
  conv_rhs => rw [← plan_blocks_flatten maxInst maxFeatures (packBatches mb lengths objs), List.map_flatten]
  rw [List.flatMap_map, List.flatMap_def]
  congr 1
  exact List.map_congr_left fun b hb => Execution.keys_ofBlock (adjacent_of_mem_blocks hnd hb)

theorem block_ne_nil (hF : 0 < maxFeatures) {bs : List Batch} (hlen : ∀ b ∈ bs, b.lookups ≤ maxInst) :
    ∀ b ∈ (plan maxInst maxFeatures bs).blocks, b ≠ [] := by
  refine Cut.run_blocks_good ?_ (fun a _ => by simp) (fun b a _ _ _ => by simp)
  intro a ha
  simpa [fits] using ⟨hlen a ha, hF⟩

/-- Both limits hold of every block. -/
theorem block_le_limits (hF : 0 < maxFeatures) {bs : List Batch} (hlen : ∀ b ∈ bs, b.lookups ≤ maxInst) :
    ∀ b ∈ (plan maxInst maxFeatures bs).blocks, lookupsOf b ≤ maxInst ∧ b.length ≤ maxFeatures := by
  refine Cut.run_blocks_good ?_ ?_ ?_
  · intro a ha
    simpa [fits] using ⟨hlen a ha, hF⟩
  · intro a ha
    simpa using ⟨hlen a ha, hF⟩
  · intro b a _ _ hfit
    simpa [fits] using hfit

end OnePack

/-! ## Putting the packs together -/

/-- Each of the `numTables` tables occurs exactly once, in exactly one pack. -/
def Placed (t : Topology) (layout : PacksToObjects) (numTables : Nat) : Prop :=
  (t.packIdentifiers.flatMap fun p => (layout p).map (·.id)).Perm (List.range numTables)

instance (t : Topology) (layout : PacksToObjects) (numTables : Nat) : Decidable (Placed t layout numTables) :=
  inferInstanceAs (Decidable (List.Perm _ _))

/-- The limits a generator is initialised with. -/
structure Limits where
  maxInst : Nat
  maxFeatures : Nat
  sparseFeatureInBytes : Nat

section Packs

variable (layout : PacksToObjects) (lim : Limits) (mb : Nat) (lengths : List Nat)

/-- The plan of one pack of a layout. -/
def planOf (p : Nat) : Cut Batch := plan lim.maxInst lim.maxFeatures (packBatches mb lengths (layout p))

@[simp] theorem planOf_all (p : Nat) :
    (planOf layout lim mb lengths p).all = packBatches mb lengths (layout p) :=
  Cut.run_all _

/-- The last block of a pack's plan, if there is one, has a lookup. -/
def TailHasLookups (p : Nat) : Prop :=
  (planOf layout lim mb lengths p).opened = [] ∨ 0 < lookupsOf (planOf layout lim mb lengths p).opened

instance (p : Nat) : Decidable (TailHasLookups layout lim mb lengths p) :=
  inferInstanceAs (Decidable (_ ∨ _))

/-- The executions a pack should get. -/
def plannedExecs (p : Nat) : List Execution :=
  (planOf layout lim mb lengths p).blocks.map (Execution.ofBlock lim.sparseFeatureInBytes)

/-- The generator between two packs: the packs in `done` are planned, the packs in `todo` untouched. -/
structure Between (done todo : List Nat) (g : ExecutionGenerator) : Prop where
  layout_eq : g.tablesLayout = layout
  maxInst : g.maxInstInBuf = lim.maxInst
  maxFeatures : g.maxFeaturesInBuf = lim.maxFeatures
  sparse : g.sparseFeatureInBytes = lim.sparseFeatureInBytes
  current : g.currentExec = {}
  planned : ∀ p ∈ done, g.getPackExecs p = plannedExecs layout lim mb lengths p
  untouched : ∀ p ∈ todo, g.getPackExecs p = []
  inRange : ∀ p ∈ todo, ∀ o ∈ layout p, o.id < g.tablesBatches.length
  counters : ∀ p ∈ todo, ∀ o ∈ layout p, g.tablesBatches.getD o.id 0 = 0

variable {layout lim mb lengths} {done todo : List Nat} {g : ExecutionGenerator} {p : Nat}

theorem Between.ready (h : Between layout lim mb lengths done (p :: todo) g) :
    Ready p ((g.tablesLayout p).map (·.id)) g := by
  refine ⟨h.current, h.untouched p (by simp), ?_, ?_⟩ <;> intro t ht
  · obtain ⟨o, ho, rfl⟩ := List.mem_map.mp ht
    exact h.inRange p (by simp) o (h.layout_eq ▸ ho)
  · obtain ⟨o, ho, rfl⟩ := List.mem_map.mp ht
    exact h.counters p (by simp) o (h.layout_eq ▸ ho)

theorem Between.plan_eq (h : Between layout lim mb lengths done todo g) (p : Nat) :
    plan g.maxInstInBuf g.maxFeaturesInBuf (packBatches mb lengths (g.tablesLayout p))
      = planOf layout lim mb lengths p := by
  rw [h.layout_eq, h.maxInst, h.maxFeatures]
  rfl

/-- The ids of the first pack are distinct, and none of them occurs in a later pack. -/
theorem ids_of_nodup (hnd : ((p :: todo).flatMap fun p => (layout p).map (·.id)).Nodup) :
    ((layout p).map (·.id)).Nodup ∧ (todo.flatMap fun p => (layout p).map (·.id)).Nodup ∧
      ∀ q ∈ todo, ∀ o ∈ layout q, o.id ∉ (layout p).map (·.id) := by
  rw [List.flatMap_cons, List.nodup_append] at hnd
  refine ⟨hnd.1, hnd.2.1, fun q hq o ho hmem => ?_⟩
  exact hnd.2.2 o.id hmem o.id (List.mem_flatMap.mpr ⟨q, hq, List.mem_map_of_mem ho⟩) rfl

/-- **The pack step.** A pack whose plan ends in a block with lookups moves from `todo` to `done`. -/
theorem Between.step (h : Between layout lim mb lengths done (p :: todo) g)
    (hnd : ((p :: todo).flatMap fun p => (layout p).map (·.id)).Nodup)
    (hpacks : ∀ q ∈ done ++ todo, q % 256 ≠ p % 256) (htail : TailHasLookups layout lim mb lengths p) :
    Between layout lim mb lengths (done ++ [p]) todo (g.generatePack mb lengths p) := by
  obtain ⟨hids, _, hfresh⟩ := ids_of_nodup hnd
  obtain ⟨hsame, hcur, hexecs⟩ := generatePack_planned h.ready (by rw [h.layout_eq]; exact hids)
    (by rw [h.plan_eq]; exact htail)
  rw [h.plan_eq, h.sparse] at hexecs
  rw [h.layout_eq] at hsame
  constructor
  · exact hsame.layout.trans h.layout_eq
  · exact hsame.maxInst.trans h.maxInst
  · exact hsame.maxFeatures.trans h.maxFeatures
  · exact hsame.sparse.trans h.sparse
  · exact hcur
  · intro q hq
    rcases List.mem_append.mp hq with hq | hq
    · rw [hsame.execs q (hpacks q (by simp [hq]))]
      exact h.planned q hq
    · rw [List.mem_singleton.mp hq]
      exact hexecs
  · intro q hq
    rw [hsame.execs q (hpacks q (by simp [hq]))]
    exact h.untouched q (by simp [hq])
  · intro q hq o ho
    rw [hsame.length]
    exact h.inRange q (by simp [hq]) o ho
  · intro q hq o ho
    rw [hsame.counters o.id (hfresh q hq o ho)]
    exact h.counters q (by simp [hq]) o ho

/-- A pack whose plan ends in a block without lookups loses that block. -/
theorem Between.leftover (h : Between layout lim mb lengths done (p :: todo) g)
    (hids : ((layout p).map (·.id)).Nodup) (htail : ¬ TailHasLookups layout lim mb lengths p) :
    (g.generatePack mb lengths p).getPackExecs p
      = (planOf layout lim mb lengths p).closed.map (Execution.ofBlock lim.sparseFeatureInBytes) := by
  have hzero : lookupsOf (planOf layout lim mb lengths p).opened = 0 := by
    have := (not_or.mp htail).2
    omega
  have := generatePack_leftover h.ready (by rw [h.layout_eq]; exact hids) (by rw [h.plan_eq]; exact hzero)
  rwa [h.plan_eq, h.sparse] at this

/-- **The pack run.** -/
theorem Between.foldl_generatePack :
    ∀ {todo done : List Nat} {g : ExecutionGenerator} {rest : List Nat},
      Between layout lim mb lengths done (todo ++ rest) g →
      ((todo ++ rest).flatMap fun p => (layout p).map (·.id)).Nodup →
      ((done ++ (todo ++ rest)).map (· % 256)).Nodup →
      (∀ p ∈ todo, TailHasLookups layout lim mb lengths p) →
      Between layout lim mb lengths (done ++ todo) rest
        (todo.foldl (ExecutionGenerator.generatePack mb lengths) g) := by
  intro todo
  induction todo with
  | nil => intro done g rest h _ _ _; simpa using h
  | cons p todo ih =>
      intro done g rest h hnd hpacks htail
      have hne : ∀ q ∈ done ++ (todo ++ rest), q % 256 ≠ p % 256 := by
        intro q hq heq
        have hperm : (done ++ (p :: todo ++ rest)).Perm (p :: (done ++ (todo ++ rest))) :=
          List.perm_middle
        have hnd' := (hperm.map (· % 256)).nodup_iff.mp hpacks
        rw [List.map_cons, List.nodup_cons] at hnd'
        exact hnd'.1 (heq ▸ List.mem_map_of_mem hq)
      have hstep := Between.step h hnd hne (htail p (by simp))
      have := ih hstep (ids_of_nodup hnd).2.1 (by simpa using hpacks) (fun q hq => htail q (by simp [hq]))
      simpa using this

end Packs

/-! ## A whole operation -/

/-- A batch list the planner accepts: `numTables * miniBatchSize` lengths, none above the limit. -/
structure LengthsOk (numTables mb maxInst : Nat) (lengths : List Nat) : Prop where
  size : lengths.length = numTables * mb
  le : ∀ l ∈ lengths, l ≤ maxInst

/-- `generate` on a freshly initialised generator. -/
def freshGenerate (t : Topology) (layout : PacksToObjects) (lim : Limits) (mb numTables : Nat)
    (lengths : List Nat) : ExecutionGenerator :=
  (ExecutionGenerator.init layout lim.maxInst lim.maxFeatures lim.sparseFeatureInBytes).generate
    t mb numTables lengths

section Fresh

variable {t : Topology} {layout : PacksToObjects} {lim : Limits} {mb numTables : Nat} {lengths : List Nat}

theorem Placed.id_lt (h : Placed t layout numTables) {p : Nat} (hp : p ∈ t.packIdentifiers)
    {o : MemoryObject} (ho : o ∈ layout p) : o.id < numTables := by
  have : o.id ∈ t.packIdentifiers.flatMap fun p => (layout p).map (·.id) :=
    List.mem_flatMap.mpr ⟨p, hp, List.mem_map_of_mem ho⟩
  exact List.mem_range.mp (h.mem_iff.mp this)

theorem Placed.nodup (h : Placed t layout numTables) :
    (t.packIdentifiers.flatMap fun p => (layout p).map (·.id)).Nodup :=
  h.nodup_iff.mpr List.nodup_range

theorem LengthsOk.batch_le (h : LengthsOk numTables mb lim.maxInst lengths) (p : Nat) :
    ∀ b ∈ packBatches mb lengths (layout p), b.lookups ≤ lim.maxInst := by
  intro b hb
  obtain ⟨o, -, hb⟩ := List.mem_flatMap.mp hb
  obtain ⟨i, -, rfl⟩ := List.mem_map.mp hb
  simp only [List.getD_eq_getElem?_getD]
  cases hl : lengths[o.id * mb + i]? with
  | none   => exact Nat.zero_le _
  | some l => exact h.le l (List.mem_of_getElem? hl)

/-- The state in which the pack loop starts. -/
theorem between_init (lim : Limits) (mb : Nat) (lengths : List Nat) (hpl : Placed t layout numTables) :
    Between layout lim mb lengths [] t.packIdentifiers
      { ExecutionGenerator.init layout lim.maxInst lim.maxFeatures lim.sparseFeatureInBytes with
        tablesBatches := ExecutionGenerator.resize [] numTables
        execPacks := fun _ => [] } := by
  refine ⟨rfl, rfl, rfl, rfl, rfl, by simp, fun _ _ => rfl, ?_, ?_⟩
  · intro p hp o ho
    simpa using hpl.id_lt hp ho
  · intro p hp o ho
    simp [List.getD_eq_getElem?_getD, hpl.id_lt hp ho]

theorem nodup_packs_mod : (t.packIdentifiers.map (· % 256)).Nodup := by
  have : t.packIdentifiers.map (· % 256) = t.packIdentifiers := by
    conv_rhs => rw [← List.map_id t.packIdentifiers]
    exact List.map_congr_left fun p hp => Topology.pack_mod hp
  rw [this]
  exact Topology.nodup_packIdentifiers

/-- **Planning is greedy cutting.** If in every pack the last block of the plan has a lookup, `generate`
    leaves nothing in the current execution and gives every pack exactly the blocks of its plan. -/
theorem generate_planned (hpl : Placed t layout numTables)
    (htail : ∀ p ∈ t.packIdentifiers, TailHasLookups layout lim mb lengths p) :
    let g := freshGenerate t layout lim mb numTables lengths
    g.currentExec = {} ∧
      ∀ p ∈ t.packIdentifiers, g.getPackExecs p = plannedExecs layout lim mb lengths p := by
  have h : Between layout lim mb lengths ([] ++ t.packIdentifiers) []
      (freshGenerate t layout lim mb numTables lengths) :=
    Between.foldl_generatePack (by rw [List.append_nil]; exact between_init lim mb lengths hpl)
      (by rw [List.append_nil]; exact hpl.nodup) (by simpa using nodup_packs_mod) htail
  exact ⟨h.current, h.planned⟩

/-! ## The exact partition -/

/-- **What an exact ordered partition of the work is.** -/
structure ExactPartition (t : Topology) (layout : PacksToObjects) (lim : Limits) (mb : Nat)
    (lengths : List Nat) (g : ExecutionGenerator) : Prop where
  /-- The chunks of a table follow one another over the executions of its pack and cover `[0, mb)`. -/
  chunks : ∀ p ∈ t.packIdentifiers, ∀ o ∈ layout p, ∃ ivs : List (Nat × Nat),
    (chunksOfTable o.id (g.getPackExecs p)).map (fun td => (td.batchOffset, td.tableBatchesChunk))
      = ivs.map (fun iv => (some iv.1, iv.2)) ∧ Consecutive 0 ivs mb
  /-- No execution of another pack mentions the table. -/
  alone : ∀ p ∈ t.packIdentifiers, ∀ o ∈ layout p, ∀ q ∈ t.packIdentifiers, q ≠ p →
    ∀ e ∈ g.getPackExecs q, ∀ td ∈ e.tablesData, td.tableId ≠ o.id
  lookups : ∀ p ∈ t.packIdentifiers, ∀ e ∈ g.getPackExecs p,
    e.totalLookups = (e.keys.map fun k => lengths.getD (k.1 * mb + k.2) 0).sum ∧ e.totalLookups ≤ lim.maxInst
  batches : ∀ p ∈ t.packIdentifiers, ∀ e ∈ g.getPackExecs p,
    e.totalBatchesInChunks = (e.tablesData.map (·.tableBatchesChunk)).sum ∧
      e.totalBatchesInChunks ≤ lim.maxFeatures
  psum : ∀ p ∈ t.packIdentifiers, ∀ e ∈ g.getPackExecs p,
    e.psumSize = e.totalBatchesInChunks * lim.sparseFeatureInBytes

theorem Placed.nodup_pack (h : Placed t layout numTables) {p : Nat} (hp : p ∈ t.packIdentifiers) :
    ((layout p).map (·.id)).Nodup :=
  (List.nodup_flatMap.mp h.nodup).1 p hp

/-- Two packs never hold the same table. -/
theorem Placed.eq_of_id_eq (h : Placed t layout numTables) {p q : Nat} (hp : p ∈ t.packIdentifiers)
    (hq : q ∈ t.packIdentifiers) {o o' : MemoryObject} (ho : o ∈ layout p) (ho' : o' ∈ layout q)
    (hid : o'.id = o.id) : q = p := by
  by_contra hne
  have hsymm : Std.Symm (Function.onFun List.Disjoint fun p => (layout p).map (·.id)) :=
    ⟨fun _ _ h _ ha hb => h hb ha⟩
  have hdisj := (List.nodup_flatMap.mp h.nodup).2.forall hq hp hne
  exact hdisj (List.mem_map_of_mem ho') (List.mem_map.mpr ⟨o, ho, hid.symm⟩)

theorem ofBlock_lookups {b : List Batch} (hadj : Adjacent b)
    (hb : ∀ x ∈ b, x.lookups = lengths.getD (x.table * mb + x.idx) 0) (sf : Nat) :
    (Execution.ofBlock sf b).totalLookups
      = ((Execution.ofBlock sf b).keys.map fun k => lengths.getD (k.1 * mb + k.2) 0).sum := by
  rw [Execution.keys_ofBlock hadj, List.map_map]
  exact congrArg List.sum (List.map_congr_left hb)

/-- The chunks recorded for a table, provided the executions are the planned ones. -/
theorem planned_chunks {p : Nat} (hnd : ((layout p).map (·.id)).Nodup) {o : MemoryObject} (ho : o ∈ layout p) :
    ∃ ivs : List (Nat × Nat),
      (chunksOfTable o.id (plannedExecs layout lim mb lengths p)).map
          (fun td => (td.batchOffset, td.tableBatchesChunk))
        = ivs.map (fun iv => (some iv.1, iv.2)) ∧ Consecutive 0 ivs mb := by
  set l := chunksOfTable o.id (plannedExecs layout lim mb lengths p) with hl
  have hchunk : ∀ td ∈ l, 0 < td.tableBatchesChunk ∧ td.batchOffset.isSome := by
    intro td htd
    obtain ⟨e, he, htd⟩ := List.mem_flatMap.mp htd
    obtain ⟨b, hb, rfl⟩ := List.mem_map.mp he
    exact (chunksOf_keys (adjacent_of_mem_blocks hnd hb)).2.1 td (List.mem_filter.mp htd).1
  refine ⟨l.map fun td => (td.batchOffset.getD 0, td.tableBatchesChunk), ?_, ?_⟩
  · rw [List.map_map]
    refine List.map_congr_left fun td htd => ?_
    obtain ⟨off, hoff⟩ := Option.isSome_iff_exists.mp (hchunk td htd).2
    simp [hoff]
  · -- written out, the chunks are the batches `0, …, mb - 1` of the table
    have hexp := expand_chunksOfTable o.id (plannedExecs layout lim mb lengths p)
    rw [plannedExecs, planOf, planned_keys hnd, List.filter_map, List.map_map] at hexp
    have hrange : (l.map fun td => (td.batchOffset.getD 0, td.tableBatchesChunk)).flatMap
        (fun iv => List.range' iv.1 iv.2) = List.range' 0 mb := by
      rw [List.flatMap_map, hl, plannedExecs, planOf, hexp]
      have hfilter : (packBatches mb lengths (layout p)).filter (·.table == o.id)
          = tableBatches mb lengths o.id := filter_packBatches hnd (List.mem_map_of_mem ho)
      simp only [Function.comp_def, hfilter, tableBatches, List.map_map, List.map_id', List.range_eq_range']
    have := Consecutive.of_expand (fun iv hiv => ?_) hrange
    · simpa using this
    · obtain ⟨td, htd, rfl⟩ := List.mem_map.mp hiv
      exact (hchunk td htd).1

/-- A table named by a planned execution of a pack is a table of that pack. -/
theorem planned_tableId {p : Nat} (hnd : ((layout p).map (·.id)).Nodup) {e : Execution}
    (he : e ∈ plannedExecs layout lim mb lengths p) {td : TableData} (htd : td ∈ e.tablesData) :
    ∃ o ∈ layout p, o.id = td.tableId := by
  obtain ⟨b, hb, rfl⟩ := List.mem_map.mp he
  have hadj := adjacent_of_mem_blocks hnd hb
  obtain ⟨hpos, -⟩ := (chunksOf_keys hadj).2.1 td htd
  have hkey : (td.tableId, td.batchOffset.getD 0) ∈ (Execution.ofBlock lim.sparseFeatureInBytes b).keys :=
    List.mem_flatMap.mpr ⟨td, htd, List.mem_map.mpr ⟨_, by simp [hpos], rfl⟩⟩
  rw [Execution.keys_ofBlock hadj] at hkey
  obtain ⟨x, hx, hxt⟩ := List.mem_map.mp hkey
  have hmem : x ∈ packBatches mb lengths (layout p) := by
    rw [← plan_blocks_flatten lim.maxInst lim.maxFeatures (packBatches mb lengths (layout p))]
    exact List.mem_flatten.mpr ⟨b, hb, hx⟩
  obtain ⟨o, ho, hid⟩ := (mem_packBatches hmem).1
  exact ⟨o, ho, hid.trans (Prod.mk.inj hxt).1⟩

theorem exactPartition_of_planned (hpl : Placed t layout numTables) (hF : 0 < lim.maxFeatures)
    (hlen : LengthsOk numTables mb lim.maxInst lengths) {g : ExecutionGenerator}
    (hg : ∀ p ∈ t.packIdentifiers, g.getPackExecs p = plannedExecs layout lim mb lengths p) :
    ExactPartition t layout lim mb lengths g := by
  have hblock : ∀ p ∈ t.packIdentifiers, ∀ e ∈ g.getPackExecs p,
      ∃ b ∈ (planOf layout lim mb lengths p).blocks, e = Execution.ofBlock lim.sparseFeatureInBytes b := by
    intro p hp e he
    rw [hg p hp] at he
    obtain ⟨b, hb, rfl⟩ := List.mem_map.mp he
    exact ⟨b, hb, rfl⟩
  have hlim : ∀ p, ∀ b ∈ (planOf layout lim mb lengths p).blocks,
      lookupsOf b ≤ lim.maxInst ∧ b.length ≤ lim.maxFeatures :=
    fun p => block_le_limits hF (hlen.batch_le p)
  constructor
  · intro p hp o ho
    rw [hg p hp]
    exact planned_chunks (hpl.nodup_pack hp) ho
  · intro p hp o ho q hq hqp e he td htd hid
    rw [hg q hq] at he
    obtain ⟨o', ho', hid'⟩ := planned_tableId (hpl.nodup_pack hq) he htd
    exact hqp (hpl.eq_of_id_eq hp hq ho ho' (hid'.trans hid))
  · intro p hp e he
    obtain ⟨b, hb, rfl⟩ := hblock p hp e he
    refine ⟨ofBlock_lookups (adjacent_of_mem_blocks (hpl.nodup_pack hp) hb) (fun x hx => ?_) _,
      (hlim p b hb).1⟩
    have hmem : x ∈ packBatches mb lengths (layout p) := by
      rw [← plan_blocks_flatten lim.maxInst lim.maxFeatures (packBatches mb lengths (layout p))]
      exact List.mem_flatten.mpr ⟨b, hb, hx⟩
    exact (mem_packBatches hmem).2.2
  · intro p hp e he
    obtain ⟨b, hb, rfl⟩ := hblock p hp e he
    refine ⟨?_, (hlim p b hb).2⟩
    rw [Execution.sum_chunks_eq_length_keys,
      Execution.keys_ofBlock (adjacent_of_mem_blocks (hpl.nodup_pack hp) hb), List.length_map]
    rfl
  · intro p hp e he
    obtain ⟨b, -, rfl⟩ := hblock p hp e he
    rfl

/-- If every batch looks something up, so does the last block of every plan. -/
theorem tailHasLookups_of_pos (hpl : Placed t layout numTables)
    (hsize : lengths.length = numTables * mb) (hpos : ∀ l ∈ lengths, 0 < l) {p : Nat}
    (hp : p ∈ t.packIdentifiers) : TailHasLookups layout lim mb lengths p := by
  rcases hopen : (planOf layout lim mb lengths p).opened with _ | ⟨b, bs⟩
  · exact Or.inl hopen
  · refine Or.inr ?_
    have hmem : b ∈ packBatches mb lengths (layout p) := by
      rw [← planOf_all layout lim mb lengths p]
      exact List.mem_append_right _ (by simp [hopen])
    obtain ⟨⟨o, ho, hid⟩, hidx, hlook⟩ := mem_packBatches hmem
    have hlt : b.table * mb + b.idx < lengths.length := by
      have h1 : b.table + 1 ≤ numTables := hid ▸ hpl.id_lt hp ho
      have h2 : (b.table + 1) * mb ≤ numTables * mb := Nat.mul_le_mul_right mb h1
      rw [Nat.add_mul] at h2
      omega
    have hb : 0 < b.lookups := by
      rw [hlook, List.getD_eq_getElem?_getD, List.getElem?_eq_getElem hlt]
      exact hpos _ (List.getElem_mem hlt)
    rw [hopen, show b :: bs = [b] ++ bs from rfl, lookupsOf_append, lookupsOf_singleton]
    omega

/-- **The plan is an exact ordered partition.** For a freshly initialised generator and any layout with
    each table in exactly one pack, if every batch has between one and `maxInst` lookups, then over the
    executions of its pack each table's chunks are adjacent non-empty intervals that cover the minibatch,
    and every execution has consistent totals within both limits. -/
theorem generate_partition (t : Topology) (layout : PacksToObjects) (lim : Limits) (mb numTables : Nat)
    (lengths : List Nat) (hpl : Placed t layout numTables) (hF : 0 < lim.maxFeatures)
    (hsize : lengths.length = numTables * mb) (hlen : ∀ l ∈ lengths, 0 < l ∧ l ≤ lim.maxInst) :
    ExactPartition t layout lim mb lengths (freshGenerate t layout lim mb numTables lengths) := by
  have hok : LengthsOk numTables mb lim.maxInst lengths := ⟨hsize, fun l hl => (hlen l hl).2⟩
  have htail : ∀ p ∈ t.packIdentifiers, TailHasLookups layout lim mb lengths p :=
    fun p hp => tailHasLookups_of_pos hpl hsize (fun l hl => (hlen l hl).1) hp
  exact exactPartition_of_planned hpl hF hok (generate_planned hpl htail).2

end Fresh

/-- Two tables on unit 0 and one on unit 1. -/
def layoutSample : PacksToObjects
  | 1 => [⟨0, 64, fun _ => 0⟩, ⟨2, 64, fun _ => 64⟩]
  | 2 => [⟨1, 64, fun _ => 0⟩]
  | _ => []

/-- Three batches per table and room for two features, so that chunks are cut and shared. -/
theorem generate_partition_sample :
    ExactPartition .cxl layoutSample ⟨5, 2, 64⟩ 3 [1, 2, 3, 5, 4, 1, 2, 2, 2]
      (freshGenerate .cxl layoutSample ⟨5, 2, 64⟩ 3 3 [1, 2, 3, 5, 4, 1, 2, 2, 2]) :=
  generate_partition .cxl layoutSample ⟨5, 2, 64⟩ 3 3 [1, 2, 3, 5, 4, 1, 2, 2, 2]
    (by decide) (by decide) (by decide) (by decide)

/-! ## Batches without lookups -/

section Leftover

open ExecutionGenerator

variable {p q : Nat} (hqp : q % 256 ≠ p % 256)
include hqp

theorem generateBatch_getPackExecs (g : ExecutionGenerator) (tableId batchLookups : Nat) :
    (g.generateBatch q tableId batchLookups).getPackExecs p = g.getPackExecs p := by
  rw [generateBatch_eq]
  split
  · rfl
  · show Function.update g.execPacks (q % 256) _ (p % 256) = _
    rw [Function.update_of_ne hqp.symm]
    rfl

/-- Planning pack `q` leaves the executions of every other pack alone. -/
theorem generatePack_getPackExecs (mb : Nat) (lengths : List Nat) (g : ExecutionGenerator) :
    (g.generatePack mb lengths q).getPackExecs p = g.getPackExecs p := by
  have hbatch : ∀ (bs : List Batch) (g : ExecutionGenerator),
      (bs.foldl (fun g b => g.generateBatch q b.table b.lookups) g).getPackExecs p = g.getPackExecs p := by
    intro bs
    induction bs with
    | nil => intro g; rfl
    | cons b bs ih => intro g; rw [List.foldl_cons, ih, generateBatch_getPackExecs hqp]
  rw [generatePack, commitLast, foldl_generateTable]
  split
  · simp only [commitExecution, commitCurrent, getPackExecs, Function.update_of_ne hqp.symm] at hbatch ⊢
    exact hbatch _ g
  · exact hbatch _ g

end Leftover

theorem foldl_generatePack_getPackExecs {p : Nat} (mb : Nat) (lengths : List Nat) :
    ∀ {packs : List Nat} {g : ExecutionGenerator}, (∀ q ∈ packs, q % 256 ≠ p % 256) →
      (packs.foldl (ExecutionGenerator.generatePack mb lengths) g).getPackExecs p = g.getPackExecs p := by
  intro packs
  induction packs with
  | nil => intro g _; rfl
  | cons q packs ih =>
      intro g h
      rw [List.foldl_cons, ih fun r hr => h r (by simp [hr]), generatePack_getPackExecs (h q (by simp))]

/-- The pairs of some tables, table by table. -/
theorem map_key_packBatches (mb : Nat) (lengths : List Nat) (objs : List MemoryObject) :
    (packBatches mb lengths objs).map (fun b => (b.table, b.idx))
      = (objs.map (·.id)).flatMap fun id => (List.range mb).map (id, ·) := by
  simp [packBatches, tableBatches, List.map_flatMap, List.flatMap_map, Function.comp_def]

theorem nodup_packBatches_keys (mb : Nat) (lengths : List Nat) {objs : List MemoryObject}
    (hnd : (objs.map (·.id)).Nodup) :
    ((packBatches mb lengths objs).map fun b => (b.table, b.idx)).Nodup := by
  rw [map_key_packBatches, List.nodup_flatMap]
  refine ⟨fun id _ => List.Nodup.map (fun _ _ h => (Prod.mk.inj h).2) List.nodup_range, ?_⟩
  refine hnd.imp fun {a b} hab x ha hb => ?_
  obtain ⟨_, -, rfl⟩ := List.mem_map.mp ha
  obtain ⟨_, -, h⟩ := List.mem_map.mp hb
  exact hab (Prod.mk.inj h).1.symm

/-- **Every batch stays in its own pack.** Over the executions of the pack that holds its table, each
    (table, batch) pair is covered exactly once; nothing is left in the current execution, and no execution
    of another pack mentions the table. -/
structure CoversAll (t : Topology) (layout : PacksToObjects) (mb : Nat) (g : ExecutionGenerator) : Prop where
  covered : ∀ p ∈ t.packIdentifiers, ∀ o ∈ layout p, ∀ i < mb,
    ((g.getPackExecs p).flatMap Execution.keys).count (o.id, i) = 1
  current : g.currentExec.tablesData = [] ∧ g.currentExec.totalBatchesInChunks = 0
  alone : ∀ p ∈ t.packIdentifiers, ∀ o ∈ layout p, ∀ q ∈ t.packIdentifiers, q ≠ p →
    ∀ e ∈ g.getPackExecs q, ∀ td ∈ e.tablesData, td.tableId ≠ o.id

section Fresh

variable {t : Topology} {layout : PacksToObjects} {lim : Limits} {mb numTables : Nat} {lengths : List Nat}

theorem mem_packBatches_keys {p : Nat} {o : MemoryObject} (ho : o ∈ layout p) {i : Nat} (hi : i < mb) :
    (o.id, i) ∈ (packBatches mb lengths (layout p)).map fun b => (b.table, b.idx) :=
  List.mem_map.mpr ⟨⟨o.id, i, _⟩, List.mem_flatMap.mpr ⟨o, ho, List.mem_map.mpr ⟨i, List.mem_range.mpr hi, rfl⟩⟩, rfl⟩

theorem coversAll_of_tails (hpl : Placed t layout numTables) (hF : 0 < lim.maxFeatures)
    (hlen : LengthsOk numTables mb lim.maxInst lengths)
    (htail : ∀ p ∈ t.packIdentifiers, TailHasLookups layout lim mb lengths p) :
    CoversAll t layout mb (freshGenerate t layout lim mb numTables lengths) := by
  obtain ⟨hcur, hexecs⟩ := generate_planned hpl htail
  refine ⟨?_, by simp [hcur], (exactPartition_of_planned hpl hF hlen hexecs).alone⟩
  intro p hp o ho i hi
  have hnd := hpl.nodup_pack hp
  rw [hexecs p hp, plannedExecs, planOf, planned_keys hnd]
  exact List.count_eq_one_of_mem (nodup_packBatches_keys mb lengths hnd) (mem_packBatches_keys ho hi)

/-- The executions of the first pack whose plan ends without lookups: its last block is missing. -/
theorem getPackExecs_of_not_tail (hpl : Placed t layout numTables) {pre post : List Nat} {p : Nat}
    (hsplit : t.packIdentifiers = pre ++ p :: post)
    (hpre : ∀ q ∈ pre, TailHasLookups layout lim mb lengths q)
    (hp : ¬ TailHasLookups layout lim mb lengths p) :
    (freshGenerate t layout lim mb numTables lengths).getPackExecs p
      = (planOf layout lim mb lengths p).closed.map (Execution.ofBlock lim.sparseFeatureInBytes) := by
  have hpmem : p ∈ t.packIdentifiers := by simp [hsplit]
  have hids := hpl.nodup_pack hpmem
  have hnd := hpl.nodup
  have hmod := nodup_packs_mod (t := t)
  have h0 := between_init lim mb lengths hpl
  rw [hsplit] at hnd hmod h0
  have h1 : Between layout lim mb lengths ([] ++ pre) (p :: post) _ :=
    Between.foldl_generatePack h0 hnd (by simpa using hmod) hpre
  have hpost : ∀ q ∈ post, q % 256 ≠ p % 256 := by
    intro q hq heq
    rw [List.map_append, List.nodup_append, List.map_cons, List.nodup_cons] at hmod
    exact hmod.2.1.1 (heq ▸ List.mem_map_of_mem hq)
  rw [freshGenerate, ExecutionGenerator.generate, hsplit, List.foldl_append, List.foldl_cons,
    foldl_generatePack_getPackExecs mb lengths hpost]
  exact h1.leftover hids hp

/-- **When batches stay in their own pack.** For a fresh generator, any layout with each table in exactly
    one pack and any lengths between zero and the instruction limit, every batch is covered by its own pack
    exactly when in no pack the plan ends in a block whose batches all have zero lookups. -/
theorem generate_coversAll_iff (t : Topology) (layout : PacksToObjects) (lim : Limits) (mb numTables : Nat)
    (lengths : List Nat) (hpl : Placed t layout numTables) (hF : 0 < lim.maxFeatures)
    (hlen : LengthsOk numTables mb lim.maxInst lengths) :
    CoversAll t layout mb (freshGenerate t layout lim mb numTables lengths) ↔
      ∀ p ∈ t.packIdentifiers, TailHasLookups layout lim mb lengths p := by
  refine ⟨fun hcov => ?_, coversAll_of_tails hpl hF hlen⟩
  by_contra hbad
  obtain ⟨pre, p, post, hsplit, hpre, hp⟩ := exists_first_not hbad
  have hpmem : p ∈ t.packIdentifiers := by simp [hsplit]
  have hids := hpl.nodup_pack hpmem
  -- the last batch of the block that is never committed
  obtain ⟨b, hb⟩ := List.exists_mem_of_ne_nil _ (not_or.mp hp).1
  have hkeys := nodup_packBatches_keys mb lengths hids
  rw [← planOf_all layout lim mb lengths p, Cut.all, List.map_append, List.nodup_append] at hkeys
  have hmem : b ∈ packBatches mb lengths (layout p) := by
    rw [← planOf_all layout lim mb lengths p]
    exact List.mem_append_right _ hb
  obtain ⟨⟨o, ho, hid⟩, hidx, -⟩ := mem_packBatches hmem
  have hcount := hcov.covered p hpmem o ho b.idx hidx
  rw [getPackExecs_of_not_tail hpl hsplit hpre hp, hid] at hcount
  have hcov' : (b.table, b.idx) ∈ (((planOf layout lim mb lengths p).closed.map
      (Execution.ofBlock lim.sparseFeatureInBytes)).flatMap Execution.keys) :=
    List.count_pos_iff.mp (by omega)
  obtain ⟨e, he, hke⟩ := List.mem_flatMap.mp hcov'
  obtain ⟨blk, hblk, rfl⟩ := List.mem_map.mp he
  have hblk' : blk ∈ (planOf layout lim mb lengths p).blocks := Cut.mem_blocks_of_mem_closed hblk
  rw [Execution.keys_ofBlock (adjacent_of_mem_blocks hids hblk')] at hke
  refine hkeys.2.2 _ ?_ _ (List.mem_map_of_mem hb) rfl
  rw [List.map_flatten]
  exact List.mem_flatten.mpr ⟨_, List.mem_map_of_mem hblk, hke⟩

end Fresh

/-- Here zero-length batches fall before batches with lookups of their own pack, and all are covered. -/
theorem generate_coversAll_sample :
    CoversAll .cxl layoutSample 2 (freshGenerate .cxl layoutSample ⟨3, 4, 64⟩ 2 3 [0, 1, 0, 3, 3, 1]) :=
  (generate_coversAll_iff .cxl layoutSample ⟨3, 4, 64⟩ 2 3 [0, 1, 0, 3, 3, 1] (by decide) (by decide)
    ⟨by decide, by decide⟩).mpr (by decide)

/-- Table 0 on unit 0, table 1 on unit 1. -/
def layoutTwoUnits : PacksToObjects
  | 1 => [⟨0, 64, fun _ => 0⟩]
  | 2 => [⟨1, 64, fun _ => 0⟩]
  | _ => []

/-- One batch per table, the first without lookups: pack 1 gets no execution, and the batch of table 0 is
    committed as part of the execution of pack 2. -/
theorem generate_loses_zero_length_batch :
    let g := freshGenerate .cxl layoutTwoUnits ⟨2, 2, 64⟩ 1 2 [0, 1]
    g.getPackExecs 1 = [] ∧
      g.getPackExecs 2 = [⟨[⟨0, 1, some 0⟩, ⟨1, 1, some 0⟩], 1, 2, 128⟩] ∧
      ¬ CoversAll .cxl layoutTwoUnits 1 g := by
  refine ⟨by decide, by decide, fun h => ?_⟩
  have := h.covered 1 (by decide) ⟨0, 64, fun _ => 0⟩ (List.mem_singleton.mpr rfl) 0 (by decide)
  exact absurd this (by decide)

end Pnm.Sls

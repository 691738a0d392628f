import Mathlib.Algebra.GroupWithZero.Nat
import Pnm.Sls.ExecutionGenerator

/-!
# `Sls.PlanSim` — the generator refines greedy cutting

The abstract plan of a pack is the greedy cut (`Lib.Cut`) of its batches, in layout order, into blocks that
respect the instruction and the feature limit. An execution is a block read table by table
(`Execution.ofBlock`). `Sim` relates the generator in the middle of a pack with a cut in progress; every
batch step keeps it (`generateBatch_sim`).

The only delicate part is the offset of the chunk under construction: the generator does not know it yet,
the abstract chunk does. `Sim` therefore keeps the counters exactly one open chunk behind (`counters`) and
remembers where that chunk ends (`lastEnd`), which is what a commit needs.
-/

namespace Pnm.Sls

open Pnm.Lib

/-- One batch of one table, with its number of lookups. -/
structure Batch where
  table : Nat
  idx : Nat
  lookups : Nat
deriving DecidableEq, Repr

/-- Total lookups of a list of batches. -/
def lookupsOf (bs : List Batch) : Nat := (bs.map (·.lookups)).sum

@[simp] theorem lookupsOf_nil : lookupsOf [] = 0 := rfl

@[simp] theorem lookupsOf_append (bs cs : List Batch) :
    lookupsOf (bs ++ cs) = lookupsOf bs + lookupsOf cs := by simp [lookupsOf]

@[simp] theorem lookupsOf_singleton (b : Batch) : lookupsOf [b] = b.lookups := by
  simp [lookupsOf]

/-- How many batches of table `t` a list holds. -/
def countTable (t : Nat) (bs : List Batch) : Nat := bs.countP (·.table == t)

@[simp] theorem countTable_nil (t : Nat) : countTable t [] = 0 := rfl

@[simp] theorem countTable_append (t : Nat) (bs cs : List Batch) :
    countTable t (bs ++ cs) = countTable t bs + countTable t cs := by simp [countTable]

theorem countTable_singleton (t : Nat) (b : Batch) :
    countTable t [b] = if b.table = t then 1 else 0 := by
  simp [countTable, List.countP_singleton]

/-- A batch fits a block when neither the instruction buffer nor the psum buffer overflows. -/
def fits (maxInst maxFeatures : Nat) (block : List Batch) (b : Batch) : Bool :=
  decide (lookupsOf block + b.lookups ≤ maxInst ∧ block.length + 1 ≤ maxFeatures)

/-! ## Chunks of a block -/

/-- Extend the chunks of a block by one batch: the last chunk grows if it is of the same table. -/
def pushBatch (l : List TableData) (b : Batch) : List TableData :=
  if l.getLast?.map (·.tableId) = some b.table then
    modifyBack (fun td => { td with tableBatchesChunk := td.tableBatchesChunk + 1 }) l
  else l ++ [⟨b.table, 1, some b.idx⟩]

/-- The chunks of a block. -/
def chunksOf (bs : List Batch) : List TableData := bs.foldl pushBatch []

@[simp] theorem chunksOf_nil : chunksOf [] = [] := rfl

@[simp] theorem chunksOf_concat (bs : List Batch) (b : Batch) :
    chunksOf (bs ++ [b]) = pushBatch (chunksOf bs) b := by simp [chunksOf]

theorem pushBatch_concat_same {l : List TableData} {td : TableData} {b : Batch} (h : td.tableId = b.table) :
    pushBatch (l ++ [td]) b
      = l ++ [{ td with tableBatchesChunk := td.tableBatchesChunk + 1 }] := by
  simp [pushBatch, h]

theorem pushBatch_concat_other {l : List TableData} {td : TableData} {b : Batch} (h : td.tableId ≠ b.table) :
    pushBatch (l ++ [td]) b = l ++ [td] ++ [⟨b.table, 1, some b.idx⟩] := by
  simp [pushBatch, h]

@[simp] theorem chunksOf_eq_nil {bs : List Batch} : chunksOf bs = [] ↔ bs = [] := by
  rcases bs.eq_nil_or_concat' with rfl | ⟨init, b, rfl⟩
  · simp
  · rw [chunksOf_concat, pushBatch]
    split
    · rename_i h
      have : chunksOf init ≠ [] := by
        intro hn
        simp [hn] at h
      simp [this]
    · simp

/-- The committed execution of a block. -/
def Execution.ofBlock (sparseFeatureInBytes : Nat) (bs : List Batch) : Execution where
  tablesData := chunksOf bs
  totalLookups := lookupsOf bs
  totalBatchesInChunks := bs.length
  psumSize := bs.length * sparseFeatureInBytes

/-! ## The simulation relation -/

/-- The chunk under construction has no offset yet. -/
def uncommitted (l : List TableData) : List TableData :=
  modifyBack (fun td => { td with batchOffset := none }) l

/-- Batches of table `t` in the open chunk, not yet counted by `tablesBatches`. -/
def openCount (t : Nat) (bs : List Batch) : Nat :=
  match (chunksOf bs).getLast? with
  | some td => if td.tableId = t then td.tableBatchesChunk else 0
  | none    => 0

/-- `g` differs from `g₀` only in the executions of pack `p`, the counters of the tables `ts` and the
    execution under construction. -/
structure SameOutside (p : Nat) (ts : List Nat) (g₀ g : ExecutionGenerator) : Prop where
  layout : g.tablesLayout = g₀.tablesLayout
  maxInst : g.maxInstInBuf = g₀.maxInstInBuf
  maxFeatures : g.maxFeaturesInBuf = g₀.maxFeaturesInBuf
  sparse : g.sparseFeatureInBytes = g₀.sparseFeatureInBytes
  length : g.tablesBatches.length = g₀.tablesBatches.length
  counters : ∀ t, t ∉ ts → g.tablesBatches.getD t 0 = g₀.tablesBatches.getD t 0
  execs : ∀ q, q % 256 ≠ p % 256 → g.getPackExecs q = g₀.getPackExecs q

theorem SameOutside.refl (p : Nat) (ts : List Nat) (g : ExecutionGenerator) : SameOutside p ts g g :=
  ⟨rfl, rfl, rfl, rfl, rfl, fun _ _ => rfl, fun _ _ => rfl⟩

/-- **The simulation relation.** Generator `g`, which entered pack `p` with tables `ts` in state `g₀`,
    realises the cut `c`. -/
structure Sim (p : Nat) (ts : List Nat) (g₀ g : ExecutionGenerator) (c : Cut Batch) : Prop where
  frame : SameOutside p ts g₀ g
  execs : g.getPackExecs p = c.closed.map (Execution.ofBlock g.sparseFeatureInBytes)
  tables : g.currentExec.tablesData = uncommitted (chunksOf c.opened)
  lookups : g.currentExec.totalLookups = lookupsOf c.opened
  batches : g.currentExec.totalBatchesInChunks = c.opened.length
  psum : g.currentExec.psumSize = 0
  inRange : ∀ t ∈ ts, t < g.tablesBatches.length
  tablesOpen : ∀ td ∈ chunksOf c.opened, td.tableId ∈ ts
  counters : ∀ t ∈ ts, g.tablesBatches.getD t 0 + openCount t c.opened = countTable t c.all
  lastEnd : ∀ td, (chunksOf c.opened).getLast? = some td →
    ∃ off, td.batchOffset = some off ∧ off + td.tableBatchesChunk = countTable td.tableId c.all

/-! ## Closing the open chunk -/

theorem getD_modify_self {l : List Nat} {i : Nat} (f : Nat → Nat) (h : i < l.length) :
    (l.modify i f).getD i 0 = f (l.getD i 0) := by
  simp [List.getD_eq_getElem?_getD, h]

theorem getD_modify_ne {l : List Nat} {i j : Nat} (f : Nat → Nat) (h : i ≠ j) :
    (l.modify i f).getD j 0 = l.getD j 0 := by
  simp [List.getD_eq_getElem?_getD, h]

/-- What committing the open chunk does to a generator that realises a cut: the chunks get exactly the abstract
    offsets, and the counters catch up. -/
theorem Sim.commitCurrent_spec {p : Nat} {ts : List Nat} {g₀ g : ExecutionGenerator} {c : Cut Batch}
    (h : Sim p ts g₀ g c) :
    g.commitCurrent.currentExec = { g.currentExec with tablesData := chunksOf c.opened } ∧
    (∀ t ∈ ts, g.commitCurrent.tablesBatches.getD t 0 = countTable t c.all) ∧
    (∀ t, t ∉ ts → g.commitCurrent.tablesBatches.getD t 0 = g.tablesBatches.getD t 0) := by
  rcases (chunksOf c.opened).eq_nil_or_concat' with hnil | ⟨init, td, hch⟩
  · -- nothing is open
    have htab : g.currentExec.tablesData = [] := by simp [h.tables, hnil, uncommitted]
    rw [ExecutionGenerator.commitCurrent_nil htab, hnil, ← htab]
    refine ⟨rfl, ?_, fun t _ => rfl⟩
    intro t ht
    have hcount := h.counters t ht
    rwa [openCount, hnil] at hcount
  · have hlast : (chunksOf c.opened).getLast? = some td := by simp [hch]
    obtain ⟨off, hoff, hend⟩ := h.lastEnd td hlast
    have hts : td.tableId ∈ ts := h.tablesOpen td (by simp [hch])
    have hopen : ∀ t, openCount t c.opened = if td.tableId = t then td.tableBatchesChunk else 0 := by
      intro t
      simp [openCount, hlast]
    -- the counter of the open chunk's table is where the chunk starts
    have hstart : g.tablesBatches.getD td.tableId 0 = off := by
      have hcount := h.counters td.tableId hts
      rw [hopen, if_pos rfl] at hcount
      omega
    have htab : g.currentExec.tablesData = init ++ [{ td with batchOffset := none }] := by
      simp [h.tables, hch, uncommitted]
    rw [ExecutionGenerator.commitCurrent_concat htab, hch]
    dsimp only
    rw [hstart, ← hoff]
    refine ⟨rfl, ?_, ?_⟩
    · intro t ht
      by_cases heq : td.tableId = t
      · subst heq
        rw [getD_modify_self _ (h.inRange _ hts), hstart, hend]
      · have hcount := h.counters t ht
        rw [hopen, if_neg heq] at hcount
        rw [getD_modify_ne _ heq, ← hcount, Nat.add_zero]
    · intro t ht
      exact getD_modify_ne _ fun he => ht (he ▸ hts)

/-! ## One batch -/

variable {p : Nat} {ts : List Nat} {g₀ g : ExecutionGenerator} {c : Cut Batch} {b : Batch}

theorem openCount_concat (t : Nat) (bs : List Batch) (b : Batch) (l : List TableData) (td : TableData)
    (h : chunksOf (bs ++ [b]) = l ++ [td]) :
    openCount t (bs ++ [b]) = if td.tableId = t then td.tableBatchesChunk else 0 := by
  simp [openCount, h]

/-- The batch continues the open chunk. -/
theorem Sim.addCurrent_same (h : Sim p ts g₀ g c) {l : List TableData} {td : TableData}
    (hch : chunksOf c.opened = l ++ [td]) (htd : td.tableId = b.table) :
    Sim p ts g₀ (g.addCurrent b.table b.lookups) ⟨c.closed, c.opened ++ [b]⟩ := by
  have hch' : chunksOf (c.opened ++ [b])
      = l ++ [{ td with tableBatchesChunk := td.tableBatchesChunk + 1 }] := by
    rw [chunksOf_concat, hch, pushBatch_concat_same htd]
  have hall : (⟨c.closed, c.opened ++ [b]⟩ : Cut Batch).all = c.all ++ [b] := by simp [Cut.all]
  have htab : g.currentExec.tablesData = l ++ [{ td with batchOffset := none }] := by
    simp [h.tables, hch, uncommitted]
  have hlast : (chunksOf c.opened).getLast? = some td := by simp [hch]
  rw [← htd, ExecutionGenerator.addCurrent_same b.lookups htab]
  constructor
  · exact { h.frame with }
  · exact h.execs
  · simp [hch', uncommitted]
  · simp [h.lookups]
  · simp [h.batches]
  · exact h.psum
  · exact h.inRange
  · intro x hx
    rw [hch'] at hx
    rcases List.mem_append.mp hx with hx | hx
    · exact h.tablesOpen x (by simp [hch, hx])
    · rw [List.mem_singleton.mp hx]
      exact h.tablesOpen td (by simp [hch])
  · intro t ht
    have := h.counters t ht
    rw [openCount, hlast] at this
    rw [openCount_concat t _ _ _ _ hch', hall, countTable_append, countTable_singleton, ← this, ← htd]
    dsimp only
    split <;> omega
  · intro x hx
    obtain ⟨off, hoff, hend⟩ := h.lastEnd td hlast
    obtain rfl : { td with tableBatchesChunk := td.tableBatchesChunk + 1 } = x := by
      simpa [hch'] using hx
    refine ⟨off, hoff, ?_⟩
    simp only [hall, countTable_append, countTable_singleton, htd, if_pos] at hend ⊢
    omega

/-- The batch opens a chunk, and the chunk before, if there is one, is committed first. -/
theorem Sim.addCurrent_other (h : Sim p ts g₀ g c) (hb : b.table ∈ ts) (hidx : b.idx = countTable b.table c.all)
    (hother : ∀ td, (chunksOf c.opened).getLast? = some td → td.tableId ≠ b.table) :
    Sim p ts g₀ (g.addCurrent b.table b.lookups) ⟨c.closed, c.opened ++ [b]⟩ := by
  obtain ⟨hexec, hts, hout⟩ := h.commitCurrent_spec
  have hch' : chunksOf (c.opened ++ [b]) = chunksOf c.opened ++ [⟨b.table, 1, some b.idx⟩] := by
    rw [chunksOf_concat, pushBatch, if_neg]
    intro hc
    obtain ⟨td, htd, htab⟩ := Option.map_eq_some_iff.mp hc
    exact hother td htd htab
  have hall : (⟨c.closed, c.opened ++ [b]⟩ : Cut Batch).all = c.all ++ [b] := by simp [Cut.all]
  have hlast : ∀ td, g.currentExec.tablesData.getLast? = some td → td.tableId ≠ b.table := by
    rcases (chunksOf c.opened).eq_nil_or_concat' with hnil | ⟨l, td, hch⟩
    · simp [h.tables, hnil, uncommitted]
    · simpa [h.tables, hch, uncommitted] using hother td (by simp [hch])
  rw [ExecutionGenerator.addCurrent_other b.lookups hlast, hexec]
  constructor
  · exact { h.frame with
      length := g.length_commitCurrent.trans h.frame.length
      counters := fun t ht => (hout t ht).trans (h.frame.counters t ht) }
  · exact h.execs
  · simp [hch', uncommitted]
  · simp [h.lookups]
  · simp [h.batches]
  · exact h.psum
  · intro t ht
    rw [g.length_commitCurrent]
    exact h.inRange t ht
  · intro x hx
    rw [hch'] at hx
    rcases List.mem_append.mp hx with hx | hx
    · exact h.tablesOpen x hx
    · rw [List.mem_singleton.mp hx]
      exact hb
  · intro t ht
    rw [openCount_concat t _ _ _ _ hch', hall, countTable_append, countTable_singleton, hts t ht]
  · intro x hx
    obtain rfl : (⟨b.table, 1, some b.idx⟩ : TableData) = x := by simpa [hch'] using hx
    exact ⟨b.idx, rfl, by rw [hall, countTable_append, countTable_singleton, if_pos rfl, hidx]⟩

/-- **Adding a batch to the current execution** extends the open block. -/
theorem Sim.addCurrent (h : Sim p ts g₀ g c) (hb : b.table ∈ ts) (hidx : b.idx = countTable b.table c.all) :
    Sim p ts g₀ (g.addCurrent b.table b.lookups) ⟨c.closed, c.opened ++ [b]⟩ := by
  by_cases hother : ∀ td, (chunksOf c.opened).getLast? = some td → td.tableId ≠ b.table
  · exact h.addCurrent_other hb hidx hother
  · push Not at hother
    obtain ⟨td, hlast, htd⟩ := hother
    obtain ⟨l, hch⟩ := List.getLast?_eq_some_iff.mp hlast
    exact h.addCurrent_same hch htd

/-- **Committing the current execution** closes the open block. -/
theorem Sim.commitExecution (h : Sim p ts g₀ g c) :
    Sim p ts g₀ (g.commitCurrent.commitExecution p) ⟨c.closed ++ [c.opened], []⟩ := by
  obtain ⟨hexec, hts, hout⟩ := h.commitCurrent_spec
  have hall : (⟨c.closed ++ [c.opened], []⟩ : Cut Batch).all = c.all := by simp [Cut.all]
  constructor
  · exact { h.frame with
      length := g.length_commitCurrent.trans h.frame.length
      counters := fun t ht => (hout t ht).trans (h.frame.counters t ht)
      execs := fun q hq => by
        show Function.update g.execPacks (p % 256) _ (q % 256) = _
        rw [Function.update_of_ne hq]
        exact h.frame.execs q hq }
  · have hofBlock : { g.commitCurrent.currentExec with
          psumSize := g.commitCurrent.currentExec.totalBatchesInChunks * g.sparseFeatureInBytes }
        = Execution.ofBlock g.sparseFeatureInBytes c.opened := by
      simp [hexec, Execution.ofBlock, h.lookups, h.batches]
    have hexecs := h.execs
    simp only [ExecutionGenerator.getPackExecs] at hexecs ⊢
    show Function.update g.execPacks (p % 256) (g.execPacks (p % 256) ++ [_]) (p % 256) = _
    rw [Function.update_self, hexecs, List.map_append, List.map_singleton]
    exact congrArg (_ ++ [·]) hofBlock
  · rfl
  · rfl
  · rfl
  · rfl
  · intro t ht
    show t < g.commitCurrent.tablesBatches.length
    rw [g.length_commitCurrent]
    exact h.inRange t ht
  · simp
  · intro t ht
    rw [hall]
    exact hts t ht
  · simp

/-- **The batch step.** One iteration of the batch loop is one step of the greedy cut. -/
theorem Sim.generateBatch (h : Sim p ts g₀ g c) (hb : b.table ∈ ts) (hidx : b.idx = countTable b.table c.all) :
    Sim p ts g₀ (g.generateBatch p b.table b.lookups)
      (c.add (fits g.maxInstInBuf g.maxFeaturesInBuf) b) := by
  rw [ExecutionGenerator.generateBatch_eq, h.lookups, h.batches]
  by_cases hfit : lookupsOf c.opened + b.lookups ≤ g.maxInstInBuf ∧ c.opened.length + 1 ≤ g.maxFeaturesInBuf
  · rw [if_pos hfit, Cut.add_fits (by simpa [fits] using hfit)]
    exact h.addCurrent hb hidx
  · rw [if_neg hfit, Cut.add_not_fits (by simpa [fits] using hfit)]
    apply h.commitExecution.addCurrent hb
    rw [hidx]
    simp [Cut.all]

/-! ## A whole pack -/

/-- The batches of one table, in the order of the batch loop. -/
def tableBatches (miniBatchSize : Nat) (lengths : List Nat) (id : Nat) : List Batch :=
  (List.range miniBatchSize).map fun i => ⟨id, i, lengths.getD (id * miniBatchSize + i) 0⟩

/-- The batches of one pack, in the order of the table loop. -/
def packBatches (miniBatchSize : Nat) (lengths : List Nat) (objs : List MemoryObject) : List Batch :=
  objs.flatMap fun obj => tableBatches miniBatchSize lengths obj.id

/-- The abstract plan: the greedy cut of a sequence of batches. -/
def plan (maxInst maxFeatures : Nat) (bs : List Batch) : Cut Batch := Cut.run (fits maxInst maxFeatures) bs

/-- After `pre`, the batches `bs` come in order: each is numbered by the batches of its table before it. -/
def Indexed : List Batch → List Batch → Prop
  | _, []        => True
  | pre, b :: bs => b.idx = countTable b.table pre ∧ Indexed (pre ++ [b]) bs

theorem indexed_append {xs ys : List Batch} :
    ∀ {pre : List Batch}, Indexed pre (xs ++ ys) ↔ Indexed pre xs ∧ Indexed (pre ++ xs) ys := by
  induction xs with
  | nil => simp [Indexed]
  | cons x xs ih => simp [Indexed, ih, and_assoc]

theorem countTable_tableBatches {mb : Nat} {lengths : List Nat} {id t : Nat} (h : id ≠ t) :
    countTable t (tableBatches mb lengths id) = 0 := by
  simp [countTable, tableBatches, h]

theorem indexed_range' (id : Nat) (f : Nat → Nat) (n : Nat) :
    ∀ {s : Nat} {pre : List Batch}, countTable id pre = s →
      Indexed pre ((List.range' s n).map fun i => ⟨id, i, f i⟩) := by
  induction n with
  | zero => simp [Indexed]
  | succ n ih =>
      intro s pre hs
      refine ⟨hs.symm, ih ?_⟩
      simp [countTable_singleton, hs]

theorem indexed_tableBatches {mb : Nat} {lengths : List Nat} {id : Nat} {pre : List Batch}
    (h : countTable id pre = 0) : Indexed pre (tableBatches mb lengths id) := by
  rw [tableBatches, List.range_eq_range']
  exact indexed_range' id _ mb h

theorem indexed_packBatches {mb : Nat} {lengths : List Nat} {objs : List MemoryObject} :
    ∀ {pre : List Batch}, (objs.map (·.id)).Nodup → (∀ o ∈ objs, countTable o.id pre = 0) →
      Indexed pre (packBatches mb lengths objs) := by
  induction objs with
  | nil => simp [packBatches, Indexed]
  | cons o objs ih =>
      intro pre hnd hpre
      rw [List.map_cons, List.nodup_cons] at hnd
      rw [packBatches, List.flatMap_cons, indexed_append]
      refine ⟨indexed_tableBatches (hpre o (by simp)), ih hnd.2 ?_⟩
      intro o' ho'
      have hne : o.id ≠ o'.id := fun he => hnd.1 (he ▸ List.mem_map_of_mem ho')
      rw [countTable_append, hpre o' (by simp [ho']), countTable_tableBatches hne]

/-- The two inner loops of `generate` are one fold over the batches of the pack. -/
theorem foldl_generateTable (mb : Nat) (lengths : List Nat) (p : Nat) (objs : List MemoryObject)
    (g : ExecutionGenerator) :
    objs.foldl (ExecutionGenerator.generateTable mb lengths p) g
      = (packBatches mb lengths objs).foldl (fun g b => g.generateBatch p b.table b.lookups) g := by
  induction objs generalizing g with
  | nil => rfl
  | cons o objs ih =>
      rw [packBatches, List.flatMap_cons, List.foldl_append, List.foldl_cons, ih]
      simp [ExecutionGenerator.generateTable, tableBatches, List.foldl_map, packBatches]

/-- **The batch run.** The simulation carried through any sequence of batches that comes in order. -/
theorem Sim.foldl_generateBatch {bs : List Batch} (hts : ∀ b ∈ bs, b.table ∈ ts) :
    ∀ {g : ExecutionGenerator} {c : Cut Batch}, Sim p ts g₀ g c → Indexed c.all bs →
      Sim p ts g₀ (bs.foldl (fun g b => g.generateBatch p b.table b.lookups) g)
        (bs.foldl (Cut.add (fits g₀.maxInstInBuf g₀.maxFeaturesInBuf)) c) := by
  induction bs with
  | nil => intro g c h _; exact h
  | cons b bs ih =>
      intro g c h hidx
      have hstep := h.generateBatch (hts b (by simp)) hidx.1
      rw [h.frame.maxInst, h.frame.maxFeatures] at hstep
      refine ih (fun x hx => hts x (by simp [hx])) hstep ?_
      rw [Cut.add_all]
      exact hidx.2

/-- The generator is between packs: nothing is open, pack `p` has no executions and no batch of the tables
    `ts` was counted. -/
structure Ready (p : Nat) (ts : List Nat) (g : ExecutionGenerator) : Prop where
  current : g.currentExec = {}
  execs : g.getPackExecs p = []
  inRange : ∀ t ∈ ts, t < g.tablesBatches.length
  counters : ∀ t ∈ ts, g.tablesBatches.getD t 0 = 0

theorem Ready.sim (h : Ready p ts g) : Sim p ts g g {} := by
  constructor
  · exact SameOutside.refl p ts g
  · simp [h.execs]
  · simp [h.current, uncommitted]
  · simp [h.current]
  · simp [h.current]
  · simp [h.current]
  · exact h.inRange
  · simp
  · intro t ht
    simpa [openCount, Cut.all] using h.counters t ht
  · simp

section Pack

variable {mb : Nat} {lengths : List Nat} (hready : Ready p ((g.tablesLayout p).map (·.id)) g)
  (hnd : ((g.tablesLayout p).map (·.id)).Nodup)

include hready hnd

variable (mb lengths) in
/-- The pack loop, up to the last commit, realises the plan of the pack. -/
theorem pack_sim :
    Sim p ((g.tablesLayout p).map (·.id)) g
      ((g.tablesLayout p).foldl (ExecutionGenerator.generateTable mb lengths p) g)
      (plan g.maxInstInBuf g.maxFeaturesInBuf (packBatches mb lengths (g.tablesLayout p))) := by
  rw [foldl_generateTable]
  refine Sim.foldl_generateBatch ?_ hready.sim ?_
  · intro b hb
    obtain ⟨o, ho, hb⟩ := List.mem_flatMap.mp hb
    obtain ⟨i, _, rfl⟩ := List.mem_map.mp hb
    exact List.mem_map_of_mem ho
  · exact indexed_packBatches hnd fun o _ => rfl

/-- **A pack whose last block has lookups is planned exactly**: its executions are the blocks of its plan,
    nothing stays open and nothing outside the pack changes. -/
theorem generatePack_planned
    (htail : (plan g.maxInstInBuf g.maxFeaturesInBuf (packBatches mb lengths (g.tablesLayout p))).opened = [] ∨
      0 < lookupsOf
        (plan g.maxInstInBuf g.maxFeaturesInBuf (packBatches mb lengths (g.tablesLayout p))).opened) :
    let g' := g.generatePack mb lengths p
    SameOutside p ((g.tablesLayout p).map (·.id)) g g' ∧ g'.currentExec = {} ∧
      g'.getPackExecs p
        = (plan g.maxInstInBuf g.maxFeaturesInBuf (packBatches mb lengths (g.tablesLayout p))).blocks.map
            (Execution.ofBlock g.sparseFeatureInBytes) := by
  have hsim := pack_sim mb lengths hready hnd
  set c := plan g.maxInstInBuf g.maxFeaturesInBuf (packBatches mb lengths (g.tablesLayout p))
  set gl := (g.tablesLayout p).foldl (ExecutionGenerator.generateTable mb lengths p) g
  show SameOutside _ _ g (gl.commitLast p) ∧ (gl.commitLast p).currentExec = {} ∧
    (gl.commitLast p).getPackExecs p = c.blocks.map _
  rcases htail with hnil | hpos
  · have hskip : gl.commitLast p = gl := by
      simp [ExecutionGenerator.commitLast, hsim.lookups, hnil]
    have hcur : gl.currentExec = {} := by
      ext1
      · simp [hsim.tables, hnil, uncommitted]
      · simp [hsim.lookups, hnil]
      · simp [hsim.batches, hnil]
      · exact hsim.psum
    rw [hskip]
    refine ⟨hsim.frame, hcur, ?_⟩
    rw [hsim.execs, hsim.frame.sparse, Cut.blocks, hnil]
    rfl
  · have hne : c.opened ≠ [] := by
      intro hn
      simp [hn] at hpos
    have hcommit : gl.commitLast p = gl.commitCurrent.commitExecution p := by
      rw [ExecutionGenerator.commitLast, if_pos (by rw [hsim.lookups]; omega)]
    have hfin := hsim.commitExecution
    rw [hcommit]
    refine ⟨hfin.frame, rfl, ?_⟩
    rw [hfin.execs, hfin.frame.sparse, Cut.blocks, if_neg (by simp [hne])]

/-- **A pack whose last block has batches but no lookups** keeps that block in the current execution. -/
theorem generatePack_leftover
    (htail : lookupsOf
        (plan g.maxInstInBuf g.maxFeaturesInBuf (packBatches mb lengths (g.tablesLayout p))).opened = 0) :
    (g.generatePack mb lengths p).getPackExecs p
      = (plan g.maxInstInBuf g.maxFeaturesInBuf (packBatches mb lengths (g.tablesLayout p))).closed.map
          (Execution.ofBlock g.sparseFeatureInBytes) := by
  have hsim := pack_sim mb lengths hready hnd
  have hskip : g.generatePack mb lengths p
      = (g.tablesLayout p).foldl (ExecutionGenerator.generateTable mb lengths p) g := by
    rw [ExecutionGenerator.generatePack, ExecutionGenerator.commitLast, if_neg]
    rw [hsim.lookups, htail]
    simp
  rw [hskip, hsim.execs, hsim.frame.sparse]

end Pack

end Pnm.Sls

import Mathlib.Data.List.GetD
import Pnm.Sls.PlanTotals

/-!
# `Sls.Replan` — planning again with the same generator

`ExecutionGenerator::generate` keeps its storage for reuse: it clears the executions of the last call, but
`tables_batches_.resize` leaves the counters of the tables as they are. This module says what a call on such a
generator yields, after any history of calls.

A generator whose counters start at `σ` does exactly what a fresh one does, with every batch offset moved by the
counter of its table: each step commutes with `shift σ` (`generateBatch_shift`), hence so does a whole call
(`Idle.generate_shift`). A call leaves every counter larger by its minibatch size (`Idle.generate`). So the executions
are those of a fresh generator only if the minibatch sizes before add up to zero, as `uint32_t` values (`replan_iff`).

Counters and offsets of the model are natural numbers; a counter is only added to and read, so the `uint32_t` of the
source is its remainder (`stored`).
-/

namespace Pnm.Sls

open Pnm.Lib

/-! ## Shifted counters -/

/-- Move the offset of a committed chunk by its table's amount. -/
def TableData.shift (σ : Nat → Nat) (td : TableData) : TableData :=
  { td with batchOffset := td.batchOffset.map (· + σ td.tableId) }

def Execution.shift (σ : Nat → Nat) (e : Execution) : Execution :=
  { e with tablesData := e.tablesData.map (TableData.shift σ) }

/-- The generator whose counters are ahead by `σ`. -/
def ExecutionGenerator.shift (σ : Nat → Nat) (g : ExecutionGenerator) : ExecutionGenerator :=
  { g with
      currentExec := g.currentExec.shift σ
      execPacks := fun p => (g.execPacks p).map (Execution.shift σ)
      tablesBatches := g.tablesBatches.mapIdx fun tableId n => n + σ tableId }

section Counters

variable {σ : Nat → Nat} {l : List Nat}

theorem getD_mapIdx_add (hσ : ∀ i, l.length ≤ i → σ i = 0) (i : Nat) :
    (l.mapIdx fun i n => n + σ i).getD i 0 = l.getD i 0 + σ i := by
  simp only [List.getD_eq_getElem?_getD, List.getElem?_mapIdx]
  rcases Nat.lt_or_ge i l.length with hlt | hge
  · rw [List.getElem?_eq_getElem hlt]
    rfl
  · rw [List.getElem?_eq_none hge, hσ i hge]
    rfl

theorem modify_mapIdx_add (i c : Nat) :
    (l.mapIdx fun i n => n + σ i).modify i (· + c) = (l.modify i (· + c)).mapIdx fun i n => n + σ i := by
  apply List.ext_getElem?
  intro j
  simp only [List.getElem?_modify, List.getElem?_mapIdx]
  by_cases hij : i = j
  · subst hij
    cases l[i]? with
    | none   => rfl
    | some n => simp [Nat.add_right_comm]
  · cases l[j]? with
    | none   => rfl
    | some n => simp [hij]

end Counters

namespace ExecutionGenerator

variable {σ : Nat → Nat} {g : ExecutionGenerator}

theorem commitCurrent_shift (hσ : ∀ i, g.tablesBatches.length ≤ i → σ i = 0) :
    (g.shift σ).commitCurrent = g.commitCurrent.shift σ := by
  rcases g.currentExec.tablesData.eq_nil_or_concat' with hnil | ⟨chunks, td, hch⟩
  · rw [commitCurrent_nil hnil, commitCurrent_nil]
    show g.currentExec.tablesData.map _ = []
    rw [hnil, List.map_nil]
  · have hch' : (g.shift σ).currentExec.tablesData = chunks.map (TableData.shift σ) ++ [td.shift σ] := by
      show g.currentExec.tablesData.map _ = _
      rw [hch, List.map_append, List.map_singleton]
    have hoff : (g.shift σ).tablesBatches.getD td.tableId 0 = g.tablesBatches.getD td.tableId 0 + σ td.tableId :=
      getD_mapIdx_add hσ td.tableId
    have hcounters : (g.shift σ).tablesBatches.modify td.tableId (· + td.tableBatchesChunk)
        = (g.tablesBatches.modify td.tableId (· + td.tableBatchesChunk)).mapIdx fun i n => n + σ i :=
      modify_mapIdx_add td.tableId td.tableBatchesChunk
    rw [commitCurrent_concat hch, commitCurrent_concat hch']
    simp only [TableData.shift] at hoff hcounters ⊢
    rw [hoff, hcounters]
    simp [shift, Execution.shift, TableData.shift]

/-- Adding a batch commutes with the shift. -/
theorem addCurrent_shift (hσ : ∀ i, g.tablesBatches.length ≤ i → σ i = 0) (tableId batchLookups : Nat) :
    (g.shift σ).addCurrent tableId batchLookups = (g.addCurrent tableId batchLookups).shift σ := by
  rcases g.lastChunk_cases tableId with h | ⟨chunks, td, hch, rfl⟩
  · have h' : ∀ td, (g.shift σ).currentExec.tablesData.getLast? = some td → td.tableId ≠ tableId := by
      intro td' htd'
      obtain ⟨td, htd, rfl⟩ : ∃ td, g.currentExec.tablesData.getLast? = some td ∧ td.shift σ = td' := by
        rw [← Option.map_eq_some_iff, ← List.getLast?_map]
        exact htd'
      exact h td htd
    rw [addCurrent_other batchLookups h, addCurrent_other batchLookups h', commitCurrent_shift hσ]
    simp [shift, Execution.shift, TableData.shift]
  · have hch' : (g.shift σ).currentExec.tablesData = chunks.map (TableData.shift σ) ++ [td.shift σ] := by
      show g.currentExec.tablesData.map _ = _
      rw [hch, List.map_append, List.map_singleton]
    rw [addCurrent_same batchLookups hch]
    apply (addCurrent_same batchLookups hch').trans
    simp [shift, Execution.shift, TableData.shift]

theorem commitExecution_shift (pack : Nat) : (g.shift σ).commitExecution pack = (g.commitExecution pack).shift σ := by
  have hpacks : ∀ (execs : Nat → List Execution) (q : Nat) (l : List Execution),
      (fun p => (Function.update execs q l p).map (Execution.shift σ))
        = Function.update (fun p => (execs p).map (Execution.shift σ)) q (l.map (Execution.shift σ)) := by
    intro execs q l
    funext p
    by_cases hp : p = q
    · subst hp
      simp
    · simp [hp]
  simp [commitExecution, shift, Execution.shift, hpacks]

/-- **The batch step commutes with the shift.** -/
theorem generateBatch_shift (hσ : ∀ i, g.tablesBatches.length ≤ i → σ i = 0) (pack tableId batchLookups : Nat) :
    (g.shift σ).generateBatch pack tableId batchLookups = (g.generateBatch pack tableId batchLookups).shift σ := by
  have hσ' : ∀ i, (g.commitCurrent.commitExecution pack).tablesBatches.length ≤ i → σ i = 0 := by
    intro i hi
    apply hσ i
    rw [← g.length_commitCurrent]
    exact hi
  rw [generateBatch_eq, generateBatch_eq, commitCurrent_shift hσ, commitExecution_shift, addCurrent_shift hσ,
    addCurrent_shift hσ']
  exact (apply_ite (shift σ) _ _ _).symm

/-- A round keeps the number of counters. -/
theorem length_generateBatch (pack tableId batchLookups : Nat) :
    (g.generateBatch pack tableId batchLookups).tablesBatches.length = g.tablesBatches.length := by
  rw [generateBatch_eq]
  split
  · exact (addCurrent_totals tableId batchLookups).2.2
  · exact (addCurrent_totals tableId batchLookups).2.2.trans g.length_commitCurrent

/-- **The batch run commutes with the shift.** -/
theorem foldl_generateBatch_shift (pack : Nat) (bs : List Batch) :
    ∀ {g : ExecutionGenerator}, (∀ i, g.tablesBatches.length ≤ i → σ i = 0) →
      bs.foldl (fun g b => g.generateBatch pack b.table b.lookups) (g.shift σ)
        = (bs.foldl (fun g b => g.generateBatch pack b.table b.lookups) g).shift σ ∧
      (bs.foldl (fun g b => g.generateBatch pack b.table b.lookups) g).tablesBatches.length
        = g.tablesBatches.length := by
  induction bs with
  | nil => exact fun _ => ⟨rfl, rfl⟩
  | cons b bs ih =>
      intro g hσ
      have hlength := g.length_generateBatch pack b.table b.lookups
      have hσ' : ∀ i, (g.generateBatch pack b.table b.lookups).tablesBatches.length ≤ i → σ i = 0 := by
        rwa [hlength]
      obtain ⟨hshift, hlen⟩ := ih hσ'
      rw [List.foldl_cons, List.foldl_cons, generateBatch_shift hσ, hshift, hlen, hlength]
      exact ⟨rfl, rfl⟩

/-- **The pack step commutes with the shift.** -/
theorem generatePack_shift (hσ : ∀ i, g.tablesBatches.length ≤ i → σ i = 0) (mb : Nat) (lengths : List Nat)
    (pack : Nat) :
    (g.shift σ).generatePack mb lengths pack = (g.generatePack mb lengths pack).shift σ ∧
      (g.generatePack mb lengths pack).tablesBatches.length = g.tablesBatches.length := by
  obtain ⟨hshift, hlen⟩ := foldl_generateBatch_shift pack (packBatches mb lengths (g.tablesLayout pack)) hσ
  unfold generatePack
  rw [foldl_generateTable, foldl_generateTable]
  set gl := (packBatches mb lengths (g.tablesLayout pack)).foldl (fun g b => g.generateBatch pack b.table b.lookups) g
  show commitLast (List.foldl _ (g.shift σ) (packBatches mb lengths (g.tablesLayout pack))) pack = _ ∧ _
  rw [hshift]
  unfold commitLast
  have htotal : (gl.shift σ).currentExec.totalLookups = gl.currentExec.totalLookups := rfl
  rw [htotal]
  split
  · rw [commitCurrent_shift (by rwa [hlen]), commitExecution_shift]
    exact ⟨rfl, gl.length_commitCurrent.trans hlen⟩
  · exact ⟨rfl, hlen⟩

/-- **The pack run commutes with the shift.** -/
theorem foldl_generatePack_shift (mb : Nat) (lengths packs : List Nat) :
    ∀ {g : ExecutionGenerator}, (∀ i, g.tablesBatches.length ≤ i → σ i = 0) →
      packs.foldl (generatePack mb lengths) (g.shift σ) = (packs.foldl (generatePack mb lengths) g).shift σ ∧
      (packs.foldl (generatePack mb lengths) g).tablesBatches.length = g.tablesBatches.length := by
  induction packs with
  | nil => exact fun _ => ⟨rfl, rfl⟩
  | cons p packs ih =>
      intro g hσ
      obtain ⟨hshift, hlen⟩ := generatePack_shift hσ mb lengths p
      have hσ' : ∀ i, (g.generatePack mb lengths p).tablesBatches.length ≤ i → σ i = 0 := by
        rwa [hlen]
      obtain ⟨hshift', hlen'⟩ := ih hσ'
      rw [List.foldl_cons, List.foldl_cons, hshift, hshift', hlen', hlen]
      exact ⟨rfl, rfl⟩

end ExecutionGenerator

/-! ## Calls -/

/-- A generator between two calls: it has the given layout and limits, no execution under construction, and every
table has `n` batches counted. -/
structure Idle (layout : PacksToObjects) (lim : Limits) (numTables n : Nat) (g : ExecutionGenerator) : Prop where
  layout_eq : g.tablesLayout = layout
  maxInst : g.maxInstInBuf = lim.maxInst
  maxFeatures : g.maxFeaturesInBuf = lim.maxFeatures
  sparse : g.sparseFeatureInBytes = lim.sparseFeatureInBytes
  current : g.currentExec = {}
  counters : ExecutionGenerator.resize g.tablesBatches numTables = List.replicate numTables n

section Calls

variable {t : Topology} {layout : PacksToObjects} {lim : Limits} {numTables n mb : Nat} {lengths : List Nat}
  {g : ExecutionGenerator}

/-- The shift of a generator that has counted `n` batches of every table. -/
def counted (numTables n : Nat) (tableId : Nat) : Nat := if tableId < numTables then n else 0

theorem mapIdx_replicate_counted (m : Nat) :
    ((List.replicate numTables m).mapIdx fun i k => k + counted numTables n i)
      = List.replicate numTables (m + n) := by
  apply List.ext_getElem?
  intro i
  rw [List.getElem?_mapIdx, List.getElem?_replicate, List.getElem?_replicate]
  unfold counted
  split
  · rfl
  · rfl

theorem resize_of_length {l : List Nat} (h : l.length = numTables) : ExecutionGenerator.resize l numTables = l := by
  unfold ExecutionGenerator.resize
  rw [← h, List.take_length, Nat.sub_self, List.replicate_zero, List.append_nil]

/-- **A call is a fresh call, shifted.** -/
theorem Idle.generate_shift (h : Idle layout lim numTables n g) (t : Topology) (mb : Nat) (lengths : List Nat) :
    g.generate t mb numTables lengths
      = (freshGenerate t layout lim mb numTables lengths).shift (counted numTables n) := by
  have hcounters : ((List.replicate numTables 0).mapIdx fun i k => k + counted numTables n i)
      = List.replicate numTables (0 + n) := mapIdx_replicate_counted 0
  have hstart : ({ g with
      tablesBatches := ExecutionGenerator.resize g.tablesBatches numTables
      execPacks := fun _ => [] } : ExecutionGenerator)
      = ({ ExecutionGenerator.init layout lim.maxInst lim.maxFeatures lim.sparseFeatureInBytes with
          tablesBatches := ExecutionGenerator.resize [] numTables
          execPacks := fun _ => [] } : ExecutionGenerator).shift (counted numTables n) := by
    rw [Nat.zero_add] at hcounters
    rw [h.counters, ExecutionGenerator.resize_nil, ← hcounters, ← h.layout_eq, ← h.maxInst, ← h.maxFeatures, ← h.sparse]
    simp [ExecutionGenerator.shift, ExecutionGenerator.init, Execution.shift, h.current]
  unfold freshGenerate ExecutionGenerator.generate
  dsimp only
  rw [hstart]
  refine (ExecutionGenerator.foldl_generatePack_shift mb lengths t.packIdentifiers ?_).1
  intro i hi
  rw [ExecutionGenerator.resize_nil, List.length_replicate] at hi
  exact if_neg (Nat.not_lt.mpr hi)

/-- What a call leaves behind in a fresh generator. -/
theorem idle_freshGenerate (hpl : Placed t layout numTables) (hF : 0 < lim.maxFeatures)
    (hlen : LengthsOk numTables mb lim.maxInst lengths) (hpos : ∀ l ∈ lengths, 0 < l) :
    (freshGenerate t layout lim mb numTables lengths).currentExec = {} ∧
      (freshGenerate t layout lim mb numTables lengths).tablesBatches = List.replicate numTables mb := by
  have htotals := totals_freshGenerate mb hpl hF hlen.le
  have htail : ∀ p ∈ t.packIdentifiers, TailHasLookups layout lim mb lengths p :=
    fun p hp => tailHasLookups_of_pos hpl hlen.size hpos hp
  have hcurrent := (generate_planned hpl htail).1
  refine ⟨hcurrent, ?_⟩
  apply List.ext_getElem
  · rw [htotals.length, List.length_replicate]
  · intro i hi hi'
    rw [List.getElem_replicate, ← List.getD_eq_getElem _ 0 hi]
    rw [htotals.length] at hi
    have hplanned : (freshGenerate t layout lim mb numTables lengths).planned i = mb :=
      planned_freshGenerate hpl hF hlen.le hi
    unfold ExecutionGenerator.planned at hplanned
    rwa [ExecutionGenerator.commitCurrent_nil (by rw [hcurrent])] at hplanned

/-- **A call adds its minibatch size to every counter.** -/
theorem Idle.generate (h : Idle layout lim numTables n g) (hpl : Placed t layout numTables) (hF : 0 < lim.maxFeatures)
    (hlen : LengthsOk numTables mb lim.maxInst lengths) (hpos : ∀ l ∈ lengths, 0 < l) :
    Idle layout lim numTables (n + mb) (g.generate t mb numTables lengths) := by
  have htotals := totals_freshGenerate mb hpl hF hlen.le
  obtain ⟨hcurrent, hcounters⟩ := idle_freshGenerate hpl hF hlen hpos
  rw [h.generate_shift]
  constructor
  · exact htotals.layout_eq
  · exact htotals.maxInst
  · exact htotals.maxFeatures
  · exact htotals.sparse
  · show Execution.shift _ (freshGenerate t layout lim mb numTables lengths).currentExec = {}
    rw [hcurrent]
    rfl
  · show ExecutionGenerator.resize ((freshGenerate t layout lim mb numTables lengths).tablesBatches.mapIdx _) _ = _
    rw [hcounters, mapIdx_replicate_counted, resize_of_length List.length_replicate, Nat.add_comm]

end Calls

/-! ## Histories -/

/-- One call of `generate`. -/
structure GenerateCall where
  miniBatchSize : Nat
  lengths : List Nat

/-- A call the planner accepts: a full grid of lengths between one and the instruction limit. -/
structure GenerateCall.Ok (numTables maxInst : Nat) (c : GenerateCall) : Prop where
  size : c.lengths.length = numTables * c.miniBatchSize
  lengths : ∀ l ∈ c.lengths, 1 ≤ l ∧ l ≤ maxInst

/-- The generator after a history of calls. -/
def replay (t : Topology) (layout : PacksToObjects) (lim : Limits) (numTables : Nat) (calls : List GenerateCall) :
    ExecutionGenerator :=
  calls.foldl (fun g c => g.generate t c.miniBatchSize numTables c.lengths)
    (ExecutionGenerator.init layout lim.maxInst lim.maxFeatures lim.sparseFeatureInBytes)

/-- The value a `uint32_t` offset has. -/
def TableData.stored (td : TableData) : TableData := { td with batchOffset := td.batchOffset.map (· % 2 ^ 32) }

def Execution.stored (e : Execution) : Execution := { e with tablesData := e.tablesData.map TableData.stored }

/-- Two generators hold the same executions, every batch offset included. -/
def SamePlan (t : Topology) (g g' : ExecutionGenerator) : Prop :=
  ∀ p ∈ t.packIdentifiers, (g.getPackExecs p).map Execution.stored = (g'.getPackExecs p).map Execution.stored

instance (t : Topology) (g g' : ExecutionGenerator) : Decidable (SamePlan t g g') :=
  inferInstanceAs (Decidable (∀ p ∈ t.packIdentifiers, _))

section Offsets

variable {t : Topology} {g : ExecutionGenerator} {σ : Nat → Nat} {td : TableData}

theorem stored_shift_of_dvd (h : σ td.tableId % 2 ^ 32 = 0) : (td.shift σ).stored = td.stored := by
  unfold TableData.shift TableData.stored
  cases hoff : td.batchOffset with
  | none     => rfl
  | some off =>
      have hmod : (off + σ td.tableId) % 2 ^ 32 = off % 2 ^ 32 := by
        rw [Nat.add_mod, h, Nat.add_zero, Nat.mod_mod]
      simp only [Option.map_some, hmod]

theorem mod_eq_zero_of_stored_shift {off : Nat} (hoff : td.batchOffset = some off)
    (h : (td.shift σ).stored = td.stored) : σ td.tableId % 2 ^ 32 = 0 := by
  have hmod := congrArg TableData.batchOffset h
  simp only [TableData.shift, TableData.stored, hoff, Option.map_some, Option.some.injEq] at hmod
  omega

/-- A shifted plan is the plan itself exactly if no chunk's offset moves. -/
theorem samePlan_shift_iff : SamePlan t (g.shift σ) g ↔
    ∀ p ∈ t.packIdentifiers, ∀ e ∈ g.getPackExecs p, ∀ td ∈ e.tablesData, (td.shift σ).stored = td.stored := by
  unfold SamePlan
  refine forall₂_congr fun p _ => ?_
  have hexecs : (g.shift σ).getPackExecs p = (g.getPackExecs p).map (Execution.shift σ) := rfl
  rw [hexecs, List.map_map, List.map_inj_left]
  refine forall₂_congr fun e _ => ?_
  have htables : (Execution.stored ∘ Execution.shift σ) e = e.stored ↔
      (e.tablesData.map (TableData.shift σ)).map TableData.stored = e.tablesData.map TableData.stored := by
    simp [Execution.stored, Execution.shift]
  rw [htables, List.map_map, List.map_inj_left]
  rfl

end Offsets

section History

variable {t : Topology} {layout : PacksToObjects} {lim : Limits} {numTables mb : Nat} {lengths : List Nat}

theorem idle_init : Idle layout lim numTables 0
    (ExecutionGenerator.init layout lim.maxInst lim.maxFeatures lim.sparseFeatureInBytes) := by
  constructor
  · rfl
  · rfl
  · rfl
  · rfl
  · rfl
  · exact ExecutionGenerator.resize_nil numTables

/-- **The history run.** After accepted calls every counter is the sum of their minibatch sizes. -/
theorem idle_replay (hpl : Placed t layout numTables) (hF : 0 < lim.maxFeatures) {calls : List GenerateCall}
    (hcalls : ∀ c ∈ calls, c.Ok numTables lim.maxInst) :
    Idle layout lim numTables (calls.map (·.miniBatchSize)).sum (replay t layout lim numTables calls) := by
  unfold replay
  induction calls using List.reverseRecOn with
  | nil => exact idle_init
  | append_singleton calls c ih =>
      have hc := hcalls c (List.mem_append_right _ (List.mem_singleton_self c))
      have hidle := ih fun c' hc' => hcalls c' (List.mem_append_left _ hc')
      rw [List.foldl_append, List.map_append, List.sum_append, List.map_singleton, List.sum_singleton]
      exact hidle.generate hpl hF ⟨hc.size, fun l hl => (hc.lengths l hl).2⟩ fun l hl => (hc.lengths l hl).1

/-- No minibatch, no executions. -/
theorem getPackExecs_freshGenerate_zero (hpl : Placed t layout numTables) {p : Nat} (hp : p ∈ t.packIdentifiers) :
    (freshGenerate t layout lim 0 numTables lengths).getPackExecs p = [] := by
  have hnone : ∀ q, packBatches 0 lengths (layout q) = [] := by
    intro q
    simp [packBatches, tableBatches]
  have htail : ∀ q ∈ t.packIdentifiers, TailHasLookups layout lim 0 lengths q := by
    intro q _
    left
    unfold planOf
    rw [hnone]
    rfl
  rw [(generate_planned hpl htail).2 p hp]
  unfold plannedExecs planOf
  rw [hnone]
  rfl

/-- Every table of a non-empty minibatch has a committed chunk. -/
theorem ExactPartition.exists_chunk {g : ExecutionGenerator} (h : ExactPartition t layout lim mb lengths g)
    (hmb : 0 < mb) {p : Nat} (hp : p ∈ t.packIdentifiers) {o : MemoryObject} (ho : o ∈ layout p) :
    ∃ e ∈ g.getPackExecs p, ∃ td ∈ e.tablesData, td.tableId = o.id ∧ td.batchOffset = some 0 := by
  obtain ⟨ivs, hivs, hcons⟩ := h.chunks p hp o ho
  cases hcons with
  | nil => exact absurd hmb (Nat.lt_irrefl 0)
  | cons hn _ =>
      obtain ⟨td, rest, htd, hiv, -⟩ := List.map_eq_cons_iff.mp hivs
      have hmem : td ∈ chunksOfTable o.id (g.getPackExecs p) := htd ▸ List.mem_cons_self
      obtain ⟨e, he, hmem⟩ := List.mem_flatMap.mp hmem
      obtain ⟨htd, hid⟩ := List.mem_filter.mp hmem
      exact ⟨e, he, td, htd, of_decide_eq_true hid, congrArg Prod.fst hiv⟩

/-- **When planning is repeatable.** After accepted calls, one more accepted call yields the executions of a fresh
generator exactly if it has no batches or the minibatch sizes of the calls before add up to zero as a `uint32_t`. -/
theorem replan_iff (t : Topology) (layout : PacksToObjects) (lim : Limits) (numTables : Nat)
    (calls : List GenerateCall) (call : GenerateCall) (hpl : Placed t layout numTables) (hF : 0 < lim.maxFeatures)
    (hcalls : ∀ c ∈ calls, c.Ok numTables lim.maxInst) (hcall : call.Ok numTables lim.maxInst) :
    SamePlan t ((replay t layout lim numTables calls).generate t call.miniBatchSize numTables call.lengths)
        (freshGenerate t layout lim call.miniBatchSize numTables call.lengths) ↔
      numTables * call.miniBatchSize = 0 ∨ (calls.map (·.miniBatchSize)).sum % 2 ^ 32 = 0 := by
  have hpart := generate_partition t layout lim call.miniBatchSize numTables call.lengths hpl hF hcall.size
    hcall.lengths
  rw [(idle_replay hpl hF hcalls).generate_shift, samePlan_shift_iff]
  constructor
  · intro hsame
    rcases Nat.eq_zero_or_pos (numTables * call.miniBatchSize) with hz | hpos
    · exact Or.inl hz
    · -- table 0 has a chunk, and its offset is moved by the counter
      right
      have htables : 0 < numTables := Nat.pos_of_mul_pos_right hpos
      have hmb : 0 < call.miniBatchSize := Nat.pos_of_mul_pos_left hpos
      obtain ⟨p, hp, hmem⟩ := List.mem_flatMap.mp (hpl.mem_iff.mpr (List.mem_range.mpr htables))
      obtain ⟨o, ho, hid⟩ := List.mem_map.mp hmem
      obtain ⟨e, he, td, htd, htid, hoff⟩ := hpart.exists_chunk hmb hp ho
      have hmod := mod_eq_zero_of_stored_shift hoff (hsame p hp e he td htd)
      rwa [htid, hid, counted, if_pos htables] at hmod
  · rintro hzero p hp e he td htd
    rcases hzero with hz | hsum
    · rcases Nat.mul_eq_zero.mp hz with hn | hmb
      · apply stored_shift_of_dvd
        rw [hn, counted, if_neg (Nat.not_lt_zero _)]
        rfl
      · rw [hmb, getPackExecs_freshGenerate_zero hpl hp] at he
        cases he
    · apply stored_shift_of_dvd
      unfold counted
      split
      · exact hsum
      · rfl

end History

/-- One batch of one lookup for each of the three tables. -/
def oneBatchEach : GenerateCall := ⟨1, [1, 1, 1]⟩

theorem oneBatchEach_ok : oneBatchEach.Ok 3 5 := by
  constructor
  · rfl
  · decide

/-- The first call of a generator plans as a fresh one does, the second no longer. -/
theorem replan_once_not_twice :
    SamePlan .cxl ((replay .cxl layoutSample ⟨5, 2, 64⟩ 3 []).generate .cxl 1 3 [1, 1, 1])
        (freshGenerate .cxl layoutSample ⟨5, 2, 64⟩ 1 3 [1, 1, 1]) ∧
      ¬ SamePlan .cxl ((replay .cxl layoutSample ⟨5, 2, 64⟩ 3 [oneBatchEach]).generate .cxl 1 3 [1, 1, 1])
        (freshGenerate .cxl layoutSample ⟨5, 2, 64⟩ 1 3 [1, 1, 1]) := by
  have hplaced : Placed .cxl layoutSample 3 := by decide
  constructor
  · apply (replan_iff .cxl layoutSample ⟨5, 2, 64⟩ 3 [] oneBatchEach hplaced (by decide) (by simp)
      oneBatchEach_ok).mpr
    exact Or.inr rfl
  · apply (replan_iff .cxl layoutSample ⟨5, 2, 64⟩ 3 [oneBatchEach] oneBatchEach hplaced (by decide)
      (by simpa using oneBatchEach_ok) oneBatchEach_ok).not.mpr
    decide

/-- **The second plan starts at batch 1**: the same arguments twice, and the offset of table 1 has moved past the
only batch there is. -/
theorem replan_moves_offsets :
    (freshGenerate .cxl layoutSample ⟨5, 2, 64⟩ 1 3 [1, 1, 1]).getPackExecs 2
        = [⟨[⟨1, 1, some 0⟩], 1, 1, 64⟩] ∧
      ((freshGenerate .cxl layoutSample ⟨5, 2, 64⟩ 1 3 [1, 1, 1]).generate .cxl 1 3 [1, 1, 1]).getPackExecs 2
        = [⟨[⟨1, 1, some 1⟩], 1, 1, 64⟩] ∧
      ¬ SamePlan .cxl ((freshGenerate .cxl layoutSample ⟨5, 2, 64⟩ 1 3 [1, 1, 1]).generate .cxl 1 3 [1, 1, 1])
        (freshGenerate .cxl layoutSample ⟨5, 2, 64⟩ 1 3 [1, 1, 1]) := by
  decide +kernel

end Pnm.Sls

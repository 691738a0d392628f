import Pnm.Sls.ExecFacts
import Pnm.Sls.ParamChecks
import Pnm.Sls.PlanTotals

/-!
# `Sls.TraceFits` — does a trace fit the instruction buffer

From the parameters of a run to the length of its traces, over four components: the checks of `ParamChecks`, the
limit `SparseReduction` plans with, the planner and the trace generator. A trace has a header and one instruction
per lookup of its execution (`length_trace`, `length_execIr`), an execution has at most as many lookups as the limit
says (`PlanTotals`), and the limit is the buffer's unless some batch alone is longer. Nothing rejects such a batch,
and its execution's trace is longer than the buffer.

The end mark goes to the last word of the trace. An execution whose batches all have no lookups has no instruction
that could carry it, so the header does. There is such an execution exactly if the greedy packing of the batches, by
the limits and over all packs, closes a block without lookups (`packing`).
-/

namespace Pnm.Sls

open Pnm.Lib

/-- The environment variable `SLS_BUF_DIVIDER`: not set, a number below one (with its text), or a divider. Text that
    `strtod` reads as NaN is not modelled: no quotient by it has a `size_t` value. -/
inductive BufDividerEnv where
  | unset
  | belowOne (value : String)
  | set (divider : BufDivider)

/-- The divider that is planned with, if any. -/
def BufDividerEnv.divider : BufDividerEnv → Option BufDivider
  | .unset | .belowOne _ => none
  | .set divider         => some divider

namespace SlsOperation

variable (op : SlsOperation) (t : Topology) (layout : PacksToObjects)

/-- `SparseReduction::init_exec_gen`: a divider below one is the only reason to throw. -/
def initExecGen : BufDividerEnv → Except String ExecutionGenerator
  | .unset       => .ok (op.execGen t layout none)
  | .belowOne v  => .error s!"Buffer divider cannot be less than 1, but it is equal to {v}\n"
  | .set divider => .ok (op.execGen t layout (some divider))

end SlsOperation

/-- **A trace fits the buffer**: with its header it has no more words than the buffer, and its last instruction has
    the end mark. -/
def FitsBuffer (t : Topology) (trace : List Nat) : Prop :=
  trace.length ≤ t.instPerSingleBuf ∧
    ∃ header insts last, trace = header :: (insts ++ [last]) ∧ (decodeInstruction last).traceEnd = 1

/-! ## One trace -/

namespace TraceGenerator

theorem traceEnd_or (w : Nat) : (decodeInstruction (w ||| 1 <<< 48)).traceEnd = 1 := by
  show bitField (w ||| 1 <<< 48) 48 1 = 1
  unfold bitField
  rw [Nat.shiftRight_or_distrib, Nat.shiftLeft_shiftRight, Nat.and_one_is_mod, Nat.or_mod_two_eq_one]
  exact .inr rfl

theorem trace_nil (gen : InstructionGenerator) (bytesPerRow : Nat) (isTagged : Bool) :
    trace gen bytesPerRow isTagged [] = [writeHeader bytesPerRow isTagged ||| 1 <<< 48] := rfl

/-- The end mark goes to the last instruction. -/
theorem trace_concat (gen : InstructionGenerator) (bytesPerRow : Nat) (isTagged : Bool) (irs : List InstructionIR)
    (ir : InstructionIR) :
    trace gen bytesPerRow isTagged (irs ++ [ir])
      = writeHeader bytesPerRow isTagged :: (irs.map (compileIr gen) ++ [compileIr gen ir ||| 1 <<< 48]) := by
  unfold trace setTraceEnd
  rw [List.map_append, List.map_singleton, ← List.cons_append, modifyBack_concat, List.cons_append]

theorem length_trace (gen : InstructionGenerator) (bytesPerRow : Nat) (isTagged : Bool) (ir : List InstructionIR) :
    (trace gen bytesPerRow isTagged ir).length = ir.length + 1 := by
  rcases ir.eq_nil_or_concat' with rfl | ⟨irs, ir, rfl⟩
  · rfl
  · rw [trace_concat]
    simp

/-- **When a trace fits**: it has an instruction, and not too many. -/
theorem fitsBuffer_trace_iff {t : Topology} {gen : InstructionGenerator} {bytesPerRow : Nat} {isTagged : Bool}
    {ir : List InstructionIR} :
    FitsBuffer t (trace gen bytesPerRow isTagged ir) ↔ 0 < ir.length ∧ ir.length + 1 ≤ t.instPerSingleBuf := by
  unfold FitsBuffer
  rw [length_trace]
  rcases ir.eq_nil_or_concat' with rfl | ⟨irs, ir, rfl⟩
  · rw [trace_nil]
    constructor
    · rintro ⟨-, header, insts, last, heq, -⟩
      simp at heq
    · rintro ⟨hpos, -⟩
      exact absurd hpos (Nat.lt_irrefl 0)
  · rw [trace_concat]
    constructor
    · rintro ⟨hle, -⟩
      exact ⟨by simp, hle⟩
    · rintro ⟨-, hle⟩
      exact ⟨hle, _, _, _, rfl, traceEnd_or _⟩

end TraceGenerator

/-! ## A whole operation -/

section Operation

variable {op : SlsOperation} {t : Topology} {layout : PacksToObjects}

/-- The accepted feature sizes leave room for a feature in the psum buffer of either device. -/
theorem features_pos (ht : t = .axdimm ∨ t = .cxl)
    (hfeature : checkSparseFeatureSize op.sparseFeatureSize = .ok ()) :
    0 < t.psumSingleBufSize / op.sparseFtDataNb t := by
  unfold SlsOperation.sparseFtDataNb
  rcases checkSparseFeatureSize_eq_ok hfeature with h | h | h <;> rw [h] <;> rcases ht with rfl | rfl <;> decide

/-- The header takes one word of the buffer. -/
theorem instPerSingleBuf_eq (ht : t = .axdimm ∨ t = .cxl) :
    t.instPerSingleBuf = t.instPerSingleBufNoHeader + 1 := by
  rcases ht with rfl | rfl <;> decide

/-- Every length is that of a (table, batch) pair. -/
theorem exists_key_of_mem (hsize : op.lengths.length = op.tablesSizes.length * op.minibatchSize) {l : Nat}
    (hl : l ∈ op.lengths) :
    ∃ key : Nat × Nat, key.1 < op.tablesSizes.length ∧ key.2 < op.minibatchSize ∧ l = op.lengthOf key := by
  obtain ⟨s, hs, rfl⟩ := List.mem_iff_getElem.mp hl
  have hlt : s < op.tablesSizes.length * op.minibatchSize := hsize ▸ hs
  have hmb : 0 < op.minibatchSize := by
    rcases Nat.eq_zero_or_pos op.minibatchSize with h | h
    · rw [h, Nat.mul_zero] at hlt
      exact absurd hlt (Nat.not_lt_zero s)
    · exact h
  refine ⟨(s / op.minibatchSize, s % op.minibatchSize), ?_, Nat.mod_lt s hmb, ?_⟩
  · rw [Nat.mul_comm] at hlt
    exact Nat.div_lt_of_lt_mul hlt
  · unfold SlsOperation.lengthOf
    rw [Nat.div_add_mod', List.getD_eq_getElem _ _ hs]

/-- No block of the greedy packing is without lookups. -/
def NoEmptyBlock (op : SlsOperation) (t : Topology) (layout : PacksToObjects) (divider : Option BufDivider) : Prop :=
  ∀ block ∈ (packing (op.limits t divider) t.packIdentifiers layout op.minibatchSize op.lengths).closed,
    0 < lookupsOf block

instance (divider : Option BufDivider) : Decidable (NoEmptyBlock op t layout divider) :=
  inferInstanceAs (Decidable (∀ block ∈ _, 0 < lookupsOf block))

/-- **The plan of an operation, for one divider.** Its traces fit if and only if no batch is longer than the buffer
    and no block of the packing is without lookups. -/
theorem execGen_fits_iff (env : Option BufDivider) (ht : t = .axdimm ∨ t = .cxl)
    (hfeature : checkSparseFeatureSize op.sparseFeatureSize = .ok ())
    (hpl : Placed t layout op.tablesSizes.length)
    (hsize : op.lengths.length = op.tablesSizes.length * op.minibatchSize) :
    (∀ p ∈ t.packIdentifiers, ∀ e ∈ (op.execGen t layout env).getPackExecs p, ∀ gen computeUnit,
      FitsBuffer t (op.generateInstructions t gen (layout p) computeUnit e)) ↔
    (∀ l ∈ op.lengths, l ≤ t.instPerSingleBufNoHeader) ∧ NoEmptyBlock op t layout env := by
  have hblocks : (∀ p ∈ t.packIdentifiers, ∀ e ∈ (op.execGen t layout env).getPackExecs p, 0 < e.totalLookups) ↔
      NoEmptyBlock op t layout env := execs_pos_iff
  rw [← hblocks]
  have hfeatures : 0 < (op.limits t env).maxFeatures := features_pos ht hfeature
  have hlen : ∀ l ∈ op.lengths, l ≤ (op.limits t env).maxInst := fun l hl => le_setInstrBufferSize env hl _
  have htotals := totals_freshGenerate op.minibatchSize hpl hfeatures hlen
  -- the trace of an execution has as many instructions as the execution has lookups
  have hlookups : ∀ p, ∀ e ∈ (op.execGen t layout env).getPackExecs p, ∀ objects computeUnit,
      (op.execIr t objects computeUnit e).length = e.totalLookups := by
    intro p e he objects computeUnit
    rw [SlsOperation.length_execIr, (htotals.committed p e he).1.lookups]
    rfl
  constructor
  · intro hfits
    have hfit : ∀ p ∈ t.packIdentifiers, ∀ e ∈ (op.execGen t layout env).getPackExecs p,
        0 < e.totalLookups ∧ e.totalLookups ≤ t.instPerSingleBufNoHeader := by
      intro p hp e he
      have h := hfits p hp e he .ranked 0
      unfold SlsOperation.generateInstructions at h
      rw [TraceGenerator.fitsBuffer_trace_iff, hlookups p e he, instPerSingleBuf_eq ht] at h
      exact ⟨h.1, Nat.le_of_succ_le_succ h.2⟩
    refine ⟨fun l hl => ?_, fun p hp e he => (hfit p hp e he).1⟩
    rcases Nat.eq_zero_or_pos l with rfl | hpos
    · exact Nat.zero_le _
    -- a batch with lookups is in some execution, which then has at least these
    obtain ⟨key, htable, hidx, hkey⟩ := exists_key_of_mem hsize hl
    have hpos' : 0 < op.lengthOf key := hkey ▸ hpos
    obtain ⟨p, hp, e, he, hmem⟩ := exists_exec_of_pos hpl hfeatures hlen htable hidx hpos'
    calc l = op.lengthOf key := hkey
      _ ≤ (e.keys.map op.lengthOf).sum := List.le_sum_of_mem (List.mem_map_of_mem hmem)
      _ = e.totalLookups := (htotals.committed p e he).1.lookups.symm
      _ ≤ t.instPerSingleBufNoHeader := (hfit p hp e he).2
  · rintro ⟨hle, hpos⟩ p hp e he gen computeUnit
    unfold SlsOperation.generateInstructions
    rw [TraceGenerator.fitsBuffer_trace_iff, hlookups p e he, instPerSingleBuf_eq ht]
    have hlim : (op.limits t env).maxInst ≤ t.instPerSingleBufNoHeader := setInstrBufferSize_le env hle
    have hmax := (htotals.committed p e he).1.lookups_le
    exact ⟨hpos p hp e he, Nat.succ_le_succ (hmax.trans hlim)⟩

/-- **Rejected or fitting.** Either planning throws, before anything is written, or every trace of the plan fits. -/
def RejectedOrFits (op : SlsOperation) (t : Topology) (layout : PacksToObjects) (env : BufDividerEnv) : Prop :=
  match op.initExecGen t layout env with
  | .error _ => True
  | .ok g    => ∀ p ∈ t.packIdentifiers, ∀ e ∈ g.getPackExecs p, ∀ gen computeUnit,
      FitsBuffer t (op.generateInstructions t gen (layout p) computeUnit e)

end Operation

/-- **When traces fit the instruction buffer.** For an operation that passed the checks, on tables that are each in one
    pack: it is rejected or all its traces fit if and only if the divider is below one, or no batch has more lookups
    than the buffer has instructions and no block of the greedy packing is without lookups. -/
theorem traces_fit_iff (op : SlsOperation) (t : Topology) (layout : PacksToObjects) (env : BufDividerEnv)
    (debug : Bool) (psum : Nat) (ht : t = .axdimm ∨ t = .cxl)
    (hfeature : checkSparseFeatureSize op.sparseFeatureSize = .ok ())
    (_hrun : op.checkRunParams debug psum = .ok ()) (hpl : Placed t layout op.tablesSizes.length)
    (hsize : op.lengths.length = op.tablesSizes.length * op.minibatchSize) :
    RejectedOrFits op t layout env ↔ (∃ value, env = .belowOne value) ∨
      ((∀ l ∈ op.lengths, l ≤ t.instPerSingleBufNoHeader) ∧ NoEmptyBlock op t layout env.divider) := by
  unfold RejectedOrFits
  cases env with
  | belowOne value =>
      dsimp only [SlsOperation.initExecGen]
      exact ⟨fun _ => .inl ⟨value, rfl⟩, fun _ => trivial⟩
  | unset =>
      dsimp only [SlsOperation.initExecGen, BufDividerEnv.divider]
      rw [execGen_fits_iff none ht hfeature hpl hsize]
      simp
  | set divider =>
      dsimp only [SlsOperation.initExecGen, BufDividerEnv.divider]
      rw [execGen_fits_iff (some divider) ht hfeature hpl hsize]
      simp

/-- One table with one batch of 32768 lookups. -/
def longBatch : SlsOperation where
  opType := .float
  sparseFeatureSize := 16
  tablesSizes := [1]
  minibatchSize := 1
  lengths := [32768]
  indices := List.replicate 32768 0

/-- One table, on unit 0. -/
def oneTable : PacksToObjects
  | 1 => [⟨0, 64, fun _ => 0⟩]
  | _ => []

/-- A batch that fills the buffer with its header, between two batches without lookups, fits. -/
theorem traces_fit_full_buffer :
    RejectedOrFits { longBatch with minibatchSize := 3, lengths := [0, 32767, 0], indices := List.replicate 32767 0 }
      .axdimm oneTable .unset :=
  (traces_fit_iff { longBatch with minibatchSize := 3, lengths := [0, 32767, 0], indices := List.replicate 32767 0 }
    .axdimm oneTable .unset false 64 (.inl rfl) rfl rfl (by decide) rfl).mpr (.inr ⟨by decide, by decide +kernel⟩)

/-- **A long batch is planned as it is**: the checks pass, and its trace has one word more than the buffer. -/
theorem trace_exceeds_buffer :
    checkSparseFeatureSize longBatch.sparseFeatureSize = .ok () ∧ longBatch.checkRunParams false 64 = .ok () ∧
      (longBatch.execGen .axdimm oneTable none).getPackExecs 1 = [⟨[⟨0, 1, some 0⟩], 32768, 1, 64⟩] ∧
      (longBatch.generateInstructions .axdimm .ranked (oneTable 1) 0 ⟨[⟨0, 1, some 0⟩], 32768, 1, 64⟩).length = 32769 ∧
      Topology.axdimm.instPerSingleBuf = 32768 ∧ ¬ RejectedOrFits longBatch .axdimm oneTable .unset := by
  have hlength : (longBatch.generateInstructions .axdimm .ranked (oneTable 1) 0
      ⟨[⟨0, 1, some 0⟩], 32768, 1, 64⟩).length = 32769 := by
    unfold SlsOperation.generateInstructions
    rw [TraceGenerator.length_trace, SlsOperation.length_execIr]
    decide
  refine ⟨by decide, rfl, by decide, hlength, by decide, fun h => ?_⟩
  have hfit := ((execGen_fits_iff none (.inl rfl) (by decide) (by decide) rfl).mp h).1 32768 (by decide)
  exact absurd hfit (by decide)

end Pnm.Sls

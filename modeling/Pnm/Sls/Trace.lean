import Pnm.Lib.Jagged
import Pnm.Sls.ExecutionGenerator
import Pnm.Sls.Inst

/-!
# `Sls.Trace` — from an execution to its instruction trace

The model of `sls/operation/ir.h`, `trace_generator_core.{h,cpp}` and `trace_generator.h`. Instructions of a
chunk are written column by column: first the first lookup of every batch, then the second one, and so on.
`writeObjectTrace_eq` is the closed form of that loop, the column-major order of a jagged array; since
restricting it to one batch gives the lookups of that batch in order, the order in which the device sums
the rows of one batch is the order of its indices.

Arrays reached through a pointer are the list from that pointer on; an array is never read past its end by
the callers, and a read there is `0`.
-/

namespace Pnm.Sls

open Pnm.Lib

/-- `InstructionIR`. -/
structure InstructionIR where
  opcode : Nat
  outputIndex : Nat
  address : Nat
deriving DecidableEq, Repr

namespace TraceGeneratorCore

/-- `TraceGeneratorCore::get_phys_address`: the product is computed in 32 bits, the sum in 64. -/
def getPhysAddress (bytesPerRowFull tableRowIdx offset : Nat) : Nat :=
  (offset + tableRowIdx * bytesPerRowFull % 2 ^ 32) % 2 ^ 64

/-- `TraceGeneratorCore::write_ir`. -/
def writeIr (bytesPerRowFull opcode outputIdx tableRowIdx offset : Nat) : InstructionIR :=
  ⟨opcode, outputIdx % 2 ^ 32, getPhysAddress bytesPerRowFull tableRowIdx offset⟩

section WriteObjectTrace

variable (bytesPerRowFull cunitOffset : Nat) (index : List Nat) (psumIdBase instructionType : Nat)

/-- The `for` loop of `write_object_trace` over the lengths of the batches: the instructions of one column,
    whether there was any (`has_available_lookup`), and how far `batch_index_base` moved. -/
def writeColumn (lookupOffset : Nat) : List Nat → Nat → Nat → List InstructionIR × Bool × Nat
  | [], _, batchIndexBase => ([], false, batchIndexBase)
  | len :: lens, batchId, batchIndexBase =>
    -- move to index next range
    let (irs, hasAvailableLookup, base) := writeColumn lookupOffset lens (batchId + 1) (batchIndexBase + len)
    if lookupOffset < len then
      (writeIr bytesPerRowFull instructionType (psumIdBase + batchId)
        (index.getD (batchIndexBase + lookupOffset) 0) cunitOffset :: irs, true, base)
    else (irs, hasAvailableLookup, base)

variable {bytesPerRowFull cunitOffset index psumIdBase instructionType} in
theorem writeColumn_available {lookupOffset : Nat} {lens : List Nat} {batchId base : Nat}
    (h : (writeColumn bytesPerRowFull cunitOffset index psumIdBase instructionType lookupOffset lens batchId
      base).2.1 = true) : lookupOffset < longest lens := by
  induction lens generalizing batchId base with
  | nil => simp [writeColumn] at h
  | cons len lens ih =>
      rw [longest, List.foldr_cons]
      simp only [writeColumn] at h
      split at h
      · omega
      · have := ih h
        rw [longest] at this
        omega

/-- The `while` loop of `write_object_trace`, from column `lookupOffset` on. -/
def writeColumns (lens : List Nat) (lookupOffset : Nat) : List InstructionIR × Nat :=
  let pass := writeColumn bytesPerRowFull cunitOffset index psumIdBase instructionType lookupOffset lens 0 0
  if _h : pass.2.1 = true then
    -- move to the next column
    let (irs, processed) := writeColumns lens (lookupOffset + 1)
    (pass.1 ++ irs, processed)
  else (pass.1, pass.2.2)
termination_by longest lens - lookupOffset
decreasing_by
  have := writeColumn_available _h
  omega

/-- `TraceGeneratorCore::write_object_trace`: the instructions and the number of indices processed. -/
def writeObjectTrace (length : List Nat) (batchesCount : Nat) : List InstructionIR × Nat :=
  writeColumns bytesPerRowFull cunitOffset index psumIdBase instructionType (length.take batchesCount) 0

end WriteObjectTrace

/-- `TraceGeneratorCore::generate_instructions`, over the tables of an execution with their length and
    index pointers. -/
def generateInstructions (bytesPerRowFull type computeUnit : Nat) (objects : List MemoryObject) :
    List TableData → List (List Nat) → List (List Nat) → Nat → List InstructionIR
  | td :: tds, length :: lengths, index :: indices, batchOffset =>
    let offset := ((objects.find? (·.id == td.tableId)).map (·.offset computeUnit)).getD 0
    (writeObjectTrace bytesPerRowFull offset index batchOffset type length td.tableBatchesChunk).1 ++
      generateInstructions bytesPerRowFull type computeUnit objects tds lengths indices
        ((batchOffset + td.tableBatchesChunk) % 2 ^ 32)
  | _, _, _, _ => []

end TraceGeneratorCore

/-- The `InstructionGenerator` argument of the templates. -/
inductive InstructionGenerator where
  | ranked
  | channel
deriving DecidableEq, Repr

/-- `decode_address_to_instruction` of either generator. -/
def InstructionGenerator.decodeAddressToInstruction :
    InstructionGenerator → Nat → DecodedInst → DecodedInst
  | ranked  => Ranked.decodeAddressToInstruction
  | channel => Channel.decodeAddressToInstruction

namespace TraceGenerator

/-- `TraceGenerator::write_header`. -/
def writeHeader (bytesPerRow : Nat) (isTagged : Bool) : Nat :=
  (bytesPerRow / 128 &&& 0b11111) ||| (isTagged.toNat <<< 8)

/-- The instruction word of one `InstructionIR` (the body of `TraceGenerator::compile`). -/
def compileIr (gen : InstructionGenerator) (ir : InstructionIR) : Nat :=
  encodeInstruction (gen.decodeAddressToInstruction ir.address (makeEmptyInstruction ir.opcode ir.outputIndex))

/-- `TraceGenerator::set_trace_end`. -/
def setTraceEnd (trace : List Nat) : List Nat := modifyBack (· ||| (1 <<< 48)) trace

/-- `TraceGenerator::generate_instructions`, given the instructions of the core. -/
def trace (gen : InstructionGenerator) (bytesPerRow : Nat) (isTagged : Bool) (ir : List InstructionIR) :
    List Nat :=
  setTraceEnd (writeHeader bytesPerRow isTagged :: ir.map (compileIr gen))

end TraceGenerator

/-! ## The closed form of the loop -/

namespace TraceGeneratorCore

section Closed

variable {bytesPerRowFull cunitOffset : Nat} {index : List Nat} {psumIdBase instructionType : Nat}

/-- The instruction of lookup `c.2` of batch `c.1`. -/
def cellIr (bytesPerRowFull cunitOffset : Nat) (index : List Nat) (psumIdBase instructionType : Nat)
    (lens : List Nat) (c : Nat × Nat) : InstructionIR :=
  writeIr bytesPerRowFull instructionType (psumIdBase + c.1) (index.getD ((lens.take c.1).sum + c.2) 0) cunitOffset

theorem writeColumn_eq (k : Nat) (lens : List Nat) (batchId base : Nat) :
    writeColumn bytesPerRowFull cunitOffset index psumIdBase instructionType k lens batchId base
      = ((column lens k).map fun b => writeIr bytesPerRowFull instructionType (psumIdBase + (batchId + b))
            (index.getD (base + (lens.take b).sum + k) 0) cunitOffset,
          !(column lens k).isEmpty, base + lens.sum) := by
  induction lens generalizing batchId base with
  | nil => simp [writeColumn, column]
  | cons len lens ih =>
      -- the rows after the first one, seen from the whole list
      have htail : (fun b => writeIr bytesPerRowFull instructionType (psumIdBase + (batchId + 1 + b))
            (index.getD (base + len + (lens.take b).sum + k) 0) cunitOffset)
          = (fun b => writeIr bytesPerRowFull instructionType (psumIdBase + (batchId + b))
            (index.getD (base + ((len :: lens).take b).sum + k) 0) cunitOffset) ∘ (· + 1) := by
        funext b
        simp only [Function.comp_apply, List.take_succ_cons, List.sum_cons]
        rw [show batchId + 1 + b = batchId + (b + 1) by omega,
          show base + len + (lens.take b).sum + k = base + (len + (lens.take b).sum) + k by omega]
      rw [writeColumn, ih, column_cons, htail]
      by_cases hk : k < len <;> simp [hk, Nat.add_assoc]

theorem writeColumns_eq (lens : List Nat) (k : Nat) :
    writeColumns bytesPerRowFull cunitOffset index psumIdBase instructionType lens k
      = ((columnsFrom lens k).map (cellIr bytesPerRowFull cunitOffset index psumIdBase instructionType lens),
          lens.sum) := by
  rw [writeColumns]
  simp only [writeColumn_eq, Nat.zero_add]
  split
  · rename_i h
    have hk : k < longest lens := by
      by_contra hk
      rw [column_eq_nil (by omega)] at h
      simp at h
    rw [writeColumns_eq lens (k + 1), columnsFrom_succ lens k, List.map_append, List.map_map]
    rfl
  · rename_i h
    have hnil : column lens k = [] := by simpa using h
    rw [columnsFrom_eq_nil (column_eq_nil_iff.mp hnil), hnil]
    rfl
termination_by longest lens - k

/-- **The closed form of `write_object_trace`.** Its loop ends, it writes one instruction per lookup in
    column-major order, and it returns the number of lookups. -/
theorem writeObjectTrace_eq (length : List Nat) (batchesCount : Nat) :
    writeObjectTrace bytesPerRowFull cunitOffset index psumIdBase instructionType length batchesCount
      = ((columnMajor (length.take batchesCount)).map
            (cellIr bytesPerRowFull cunitOffset index psumIdBase instructionType (length.take batchesCount)),
          (length.take batchesCount).sum) :=
  writeColumns_eq _ 0

end Closed

end TraceGeneratorCore

end Pnm.Sls

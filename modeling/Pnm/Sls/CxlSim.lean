import Pnm.Lib.ByteMem
import Pnm.Sls.Topology
import Pnm.Sls.Trace

/-!
# `Sls.CxlSim` — the CXL simulator core

The model of `core/device/sls/simulator_core/cxl_core_sim.cpp`. A compute unit (channel) owns its memory
blocks; `exec_trace` reads a header and then instruction words from the instruction block until one carries
the end mark, and adds table rows into the psum block. Floating-point addition is a parameter.

`execTrace_trace` says what a generated trace does: it runs to its end without an error and accumulates the
rows of its instructions in order.
-/

namespace Pnm.Sls

open Pnm.Lib

/-- The blocks of one compute unit: `SLS_BLOCK_BASE`, `INST`, `PSUM`, `TAGS` and the register that counts
    processed instructions. -/
structure CxlUnit where
  base : Mem
  inst : Mem
  psum : Mem
  tags : Mem
  processedInstNum : Nat

/-- `error::make_inval("Opcode value: ...")`. -/
inductive ExecError where
  | invalidOpcode (opcode : Nat)
deriving DecidableEq, Repr

namespace CxlSim

variable (addF32 : BitVec 32 → BitVec 32 → BitVec 32) (t : Topology)

/-- `sparse_ft_sum<T>` over 32-bit elements, with the addition of `T`. -/
def sparseFtSum (add : BitVec 32 → BitVec 32 → BitVec 32) (base : Mem) (channelAddr outputIdx bytesPerIdx : Nat)
    (psum : Mem) : Mem :=
  psum.transform add (outputIdx * bytesPerIdx) base channelAddr (bytesPerIdx / 4)

/-- `sparse_ft_sum_tagged`: the row, then the 128-bit tag that follows it. -/
def sparseFtSumTagged (channelAddr outputIdx bytesPerIdx : Nat) (u : CxlUnit) : CxlUnit :=
  let tag := outputIdx * t.alignedTagSize
  { u with
      psum := sparseFtSum (· + ·) u.base channelAddr outputIdx bytesPerIdx u.psum
      tags := u.tags.writeLE tag 16 (u.tags.readLE tag 16 + u.base.readLE (channelAddr + bytesPerIdx) 16) }

/-- One instruction of `exec_trace`. -/
def execInstr (bytesPerIdx : Nat) (isTagged : Bool) (instr : DecodedInst) (u : CxlUnit) :
    Except ExecError CxlUnit :=
  let channelAddr := Channel.encodeAddressFromInstruction instr
  match instr.opcode with
  | 0 => .ok { u with psum := sparseFtSum addF32 u.base channelAddr instr.outputIdx bytesPerIdx u.psum }
  | 2 | 3 =>
    if isTagged then .ok (sparseFtSumTagged t channelAddr instr.outputIdx bytesPerIdx u)
    else .ok { u with psum := sparseFtSum (· + ·) u.base channelAddr instr.outputIdx bytesPerIdx u.psum }
  | opcode => .error (.invalidOpcode opcode)

/-- The loop of `exec_trace` after the header: at most `n` more words, the next one being word `i`. -/
def execLoop (bytesPerIdx : Nat) (isTagged : Bool) : Nat → Nat → CxlUnit → Except ExecError CxlUnit
  | 0, _, u => .ok u
  | n + 1, i, u =>
    let instr := decodeInstruction (u.inst.readLE (8 * i) 8)
    match execInstr addF32 t bytesPerIdx isTagged instr u with
    | .error e => .error e
    | .ok u =>
      if instr.traceEnd ≠ 0 then .ok { u with processedInstNum := i + 1 }
      else execLoop bytesPerIdx isTagged n (i + 1) u

/-- `CxlSimulatorCore::exec_trace`. -/
def execTrace (u : CxlUnit) : Except ExecError CxlUnit :=
  match t.instPerSingleBuf with
  | 0 => .ok u
  | n + 1 =>
    let rawInstr := u.inst.readLE 0 8
    let bytesPerIdx := 64 <<< (rawInstr &&& 0x03)
    let isTagged := (rawInstr &&& (1 <<< 8)) ≠ 0
    execLoop addF32 t bytesPerIdx isTagged n 1 u

/-! ## What an instruction adds -/

section Sum

variable {add : BitVec 32 → BitVec 32 → BitVec 32} {base psum : Mem} {addr idx bytes j e : Nat}

/-- Features of different output indices do not touch each other. -/
theorem word_sparseFtSum (hbytes : bytes % 4 = 0) (he : e < bytes / 4) :
    (sparseFtSum add base addr idx bytes psum).word (j * bytes + 4 * e)
      = if idx = j then add (base.word (addr + 4 * e)) (psum.word (j * bytes + 4 * e))
        else psum.word (j * bytes + 4 * e) := by
  split
  · rename_i h
    subst h
    exact Mem.word_transform he
  · rename_i h
    refine Mem.word_transform_disjoint ?_
    rcases Nat.lt_or_gt_of_ne h with hlt | hgt
    · have := Nat.mul_le_mul_right bytes hlt
      rw [Nat.succ_mul] at this
      omega
    · have := Nat.mul_le_mul_right bytes hgt
      rw [Nat.succ_mul] at this
      omega

/-- **A list of instructions**: feature `j` collects the rows of the instructions with output index `j`, in
    their order. -/
theorem word_foldl_sparseFtSum (hbytes : bytes % 4 = 0) (he : e < bytes / 4) (irs : List InstructionIR) :
    (irs.foldl (fun psum ir => sparseFtSum add base ir.address ir.outputIndex bytes psum) psum).word
        (j * bytes + 4 * e)
      = (irs.filter (·.outputIndex == j)).foldl (fun acc ir => add (base.word (ir.address + 4 * e)) acc)
          (psum.word (j * bytes + 4 * e)) := by
  induction irs generalizing psum with
  | nil => rfl
  | cons ir irs ih =>
      rw [List.foldl_cons, ih, word_sparseFtSum hbytes he, List.filter_cons]
      by_cases h : ir.outputIndex = j
      · rw [if_pos h, if_pos (by simpa using h), List.foldl_cons]
      · rw [if_neg h, if_neg (by simpa using h)]

end Sum

/-! ## Running a generated trace -/

/-- An untagged `uint32` instruction whose fields fit the instruction word. -/
structure IrOk (ir : InstructionIR) : Prop where
  opcode : ir.opcode = 2
  outputIndex : ir.outputIndex < 2 ^ 12
  address : ir.address < 2 ^ 34
  aligned : ir.address % 8 = 0

/-- The instruction `compile` encodes. -/
def instOf (ir : InstructionIR) : DecodedInst :=
  Channel.decodeAddressToInstruction ir.address (makeEmptyInstruction ir.opcode ir.outputIndex)

section Trace

variable {ir : InstructionIR} {irs : List InstructionIR} {bytes : Nat} {u : CxlUnit}

theorem IrOk.inRange (h : IrOk ir) : (instOf ir).InRange :=
  Channel.inRange (by rw [h.opcode]; decide) h.outputIndex ir.address

/-- An instruction decodes as `ir`: opcode, output index and address. -/
structure Decodes (ir : InstructionIR) (inst : DecodedInst) : Prop where
  opcode : inst.opcode = 2
  outputIdx : inst.outputIdx = ir.outputIndex
  address : Channel.encodeAddressFromInstruction inst = ir.address

theorem IrOk.decodes (h : IrOk ir) : Decodes ir (instOf ir) :=
  ⟨h.opcode, rfl, Channel.address_roundTrip h.address h.aligned _⟩

/-- The end mark does not change what an instruction decodes as. -/
theorem Decodes.setTraceEnd {inst : DecodedInst} (h : Decodes ir inst) : Decodes ir { inst with traceEnd := 1 } :=
  ⟨h.opcode, h.outputIdx, h.address⟩

theorem Decodes.execInstr {inst : DecodedInst} (h : Decodes ir inst) :
    execInstr addF32 t bytes false inst u
      = .ok { u with psum := sparseFtSum (· + ·) u.base ir.address ir.outputIndex bytes u.psum } := by
  simp only [CxlSim.execInstr, h.opcode, h.outputIdx, h.address]
  rfl

theorem IrOk.decode_compileIr (h : IrOk ir) :
    decodeInstruction (TraceGenerator.compileIr .channel ir) = instOf ir :=
  decode_encode h.inRange

theorem IrOk.decode_setTraceEnd (h : IrOk ir) :
    decodeInstruction (TraceGenerator.compileIr .channel ir ||| (1 <<< 48)) = { instOf ir with traceEnd := 1 } :=
  Pnm.Sls.decode_setTraceEnd h.inRange rfl

theorem setTraceEnd_cons {w : Nat} {ws : List Nat} (h : ws ≠ []) :
    TraceGenerator.setTraceEnd (w :: ws) = w :: TraceGenerator.setTraceEnd ws := by
  obtain ⟨init, x, rfl⟩ := (List.eq_nil_or_concat' ws).resolve_left h
  rw [TraceGenerator.setTraceEnd, TraceGenerator.setTraceEnd, ← List.cons_append, modifyBack_concat,
    modifyBack_concat, List.cons_append]

/-- **The loop over a trace.** If the words from `i` on are those of `irs`, the loop executes exactly these
    instructions; what lies behind the end mark does not matter. -/
theorem execLoop_trace (hne : irs ≠ []) (hok : ∀ ir ∈ irs, IrOk ir) {n i : Nat} (hn : irs.length ≤ n)
    (hmem : ∀ k < irs.length, u.inst.readLE (8 * (i + k)) 8
      = (TraceGenerator.setTraceEnd (irs.map (TraceGenerator.compileIr .channel))).getD k 0) :
    execLoop addF32 t bytes false n i u
      = .ok { u with
          psum := irs.foldl (fun psum ir => sparseFtSum (· + ·) u.base ir.address ir.outputIndex bytes psum) u.psum
          processedInstNum := i + irs.length } := by
  induction irs generalizing n i u with
  | nil => exact absurd rfl hne
  | cons ir irs ih =>
      obtain ⟨n, rfl⟩ : ∃ m, n = m + 1 := ⟨n - 1, by simp at hn; omega⟩
      have hir : IrOk ir := hok ir (by simp)
      have hword := hmem 0 (by simp)
      rw [Nat.add_zero] at hword
      by_cases hlast : irs = []
      · -- the last instruction carries the end mark
        subst hlast
        obtain ⟨inst, hdec, hinst, hend⟩ : ∃ inst, decodeInstruction (u.inst.readLE (8 * i) 8) = inst ∧
            Decodes ir inst ∧ inst.traceEnd = 1 :=
          ⟨_, by rw [hword]; exact hir.decode_setTraceEnd, hir.decodes.setTraceEnd, rfl⟩
        have hstep : execInstr addF32 t bytes false inst u = _ := hinst.execInstr addF32 t
        simp only [execLoop, hdec, hstep, hend]
        rfl
      · have htail : irs.map (TraceGenerator.compileIr .channel) ≠ [] := by simpa using hlast
        rw [List.map_cons, setTraceEnd_cons htail] at hword hmem
        have hdec : decodeInstruction (u.inst.readLE (8 * i) 8) = instOf ir := by
          rw [hword]
          exact hir.decode_compileIr
        have hend : (instOf ir).traceEnd = 0 := rfl
        have hstep : execInstr addF32 t bytes false (instOf ir) u = _ := hir.decodes.execInstr addF32 t
        simp only [execLoop, hdec, hstep]
        simp only [hend, ne_eq, not_true_eq_false, if_false]
        rw [ih hlast (fun x hx => hok x (by simp [hx])) (by simpa using hn)]
        · simp only [List.foldl_cons, List.length_cons]
          rw [show i + 1 + irs.length = i + (irs.length + 1) by omega]
        · intro k hk
          have := hmem (k + 1) (by simpa using hk)
          rw [show i + (k + 1) = i + 1 + k by omega, List.getD_cons_succ] at this
          exact this

theorem compileIr_lt (gen : InstructionGenerator) (ir : InstructionIR) :
    TraceGenerator.compileIr gen ir < 2 ^ 64 := Nat.mod_lt _ (by decide)

/-- Every word of a trace is a 64-bit word. -/
theorem setTraceEnd_lt {ws : List Nat} (h : ∀ w ∈ ws, w < 2 ^ 64) :
    ∀ w ∈ TraceGenerator.setTraceEnd ws, w < 2 ^ 64 := by
  rcases ws.eq_nil_or_concat' with rfl | ⟨init, x, rfl⟩
  · simp [TraceGenerator.setTraceEnd]
  · intro w hw
    rw [TraceGenerator.setTraceEnd, modifyBack_concat] at hw
    rcases List.mem_append.mp hw with hw | hw
    · exact h w (by simp [hw])
    · rw [List.mem_singleton.mp hw]
      exact Nat.or_lt_two_pow (h x (by simp)) (by decide)

theorem length_setTraceEnd (ws : List Nat) : (TraceGenerator.setTraceEnd ws).length = ws.length := by
  rcases ws.eq_nil_or_concat' with rfl | ⟨init, x, rfl⟩
  · rfl
  · rw [TraceGenerator.setTraceEnd, modifyBack_concat]
    simp

/-- A header for features of 64, 128 or 256 bytes is decoded as that size, untagged. -/
theorem header_mode (hbytes : bytes = 64 ∨ bytes = 128 ∨ bytes = 256) :
    TraceGenerator.writeHeader bytes false < 2 ^ 64 ∧
      64 <<< (TraceGenerator.writeHeader bytes false &&& 0x03) = bytes ∧
      TraceGenerator.writeHeader bytes false &&& (1 <<< 8) = 0 := by
  rcases hbytes with rfl | rfl | rfl <;> decide

/-- **Running a generated trace.** Once the trace is in the instruction block, `exec_trace` succeeds and
    accumulates the rows of its instructions, whatever the block held before. -/
theorem execTrace_trace (hbytes : bytes = 64 ∨ bytes = 128 ∨ bytes = 256) (hne : irs ≠ [])
    (hok : ∀ ir ∈ irs, IrOk ir) (hfit : irs.length + 1 ≤ t.instPerSingleBuf) {m : Mem}
    (hinst : u.inst = Mem.writeWords 8 m 0 (TraceGenerator.trace .channel bytes false irs)) :
    execTrace addF32 t u
      = .ok { u with
          psum := irs.foldl (fun psum ir => sparseFtSum (· + ·) u.base ir.address ir.outputIndex bytes psum) u.psum
          processedInstNum := 1 + irs.length } := by
  obtain ⟨n, hn⟩ : ∃ n, t.instPerSingleBuf = n + 1 := ⟨t.instPerSingleBuf - 1, by omega⟩
  obtain ⟨hlt, hmode, htag⟩ := header_mode hbytes
  have htrace : TraceGenerator.trace .channel bytes false irs
      = TraceGenerator.writeHeader bytes false ::
          TraceGenerator.setTraceEnd (irs.map (TraceGenerator.compileIr .channel)) := by
    rw [TraceGenerator.trace, setTraceEnd_cons (by simpa using hne)]
  rw [htrace] at hinst
  have hread : ∀ i < irs.length + 1, u.inst.readLE (8 * i) 8
      = (TraceGenerator.writeHeader bytes false ::
          TraceGenerator.setTraceEnd (irs.map (TraceGenerator.compileIr .channel))).getD i 0 := by
    intro i hi
    have hi' : i < (TraceGenerator.writeHeader bytes false ::
        TraceGenerator.setTraceEnd (irs.map (TraceGenerator.compileIr .channel))).length := by
      rw [List.length_cons, length_setTraceEnd, List.length_map]
      exact hi
    have hword := Mem.readLE_writeWords (n := 8) (m := m) (a := 0) hi'
    rw [← hinst, Nat.zero_add] at hword
    have hbound : ∀ w ∈ TraceGenerator.writeHeader bytes false ::
        TraceGenerator.setTraceEnd (irs.map (TraceGenerator.compileIr .channel)), w < 256 ^ 8 := by
      intro w hw
      rcases List.mem_cons.mp hw with rfl | hw
      · exact hlt
      · refine setTraceEnd_lt (fun x hx => ?_) w hw
        obtain ⟨ir, -, rfl⟩ := List.mem_map.mp hx
        exact compileIr_lt _ ir
    rw [hword, Nat.mod_eq_of_lt (hbound _ (List.getElem_mem hi')), List.getD_eq_getElem?_getD,
      List.getElem?_eq_getElem hi', Option.getD_some]
  have hhead := hread 0 (by omega)
  rw [Nat.mul_zero, List.getD_cons_zero] at hhead
  simp only [execTrace, hn, hhead, hmode, htag, ne_eq, not_true_eq_false, decide_false]
  refine execLoop_trace addF32 t hne hok (by omega) fun k hk => ?_
  rw [Nat.add_comm 1 k, hread (k + 1) (by omega), List.getD_cons_succ]

end Trace

end CxlSim

end Pnm.Sls

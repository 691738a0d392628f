import Pnm.Lib.Runs
import Pnm.Sls.CxlSim
import Pnm.Sls.OutputBuffers

/-!
# `Sls.AxdimmSim` — the AXDIMM simulator core

The model of `core/device/sls/simulator_core/axdimm_core_sim.cpp`: `exec_trace`, `shift_buffers`, the clear
after a read and `clear_buffers`, on the psum and tag buffers of every compute unit. Floating-point addition
is a parameter.

`buffers_clean_iff` follows the core through any sequence of these operations. As long as every clear finds
its whole dirty range within its reach, all buffers stay clean, and the first clear that does not is the first
state in which they are not. `dummy_trace_leaves_residue` is such a sequence.
-/

namespace Pnm.Sls

open Pnm.Lib

/-- The psum buffers of an AXDIMM unit. -/
def psumDims : BufferDims :=
  ⟨Topology.axdimm.psumSingleBufSize, Topology.axdimm.numOfPSumBuf, by decide, by decide, by decide⟩

/-- The tag buffers of an AXDIMM unit. -/
def tagsDims : BufferDims :=
  ⟨Topology.axdimm.tagsSingleBufSize, Topology.axdimm.numOfTagsBuf, by decide, by decide, by decide⟩

/-- One compute unit: the blocks `BASE` and `INST`, the buffers of the blocks `PSUM` and `TAGS`, and the register
    that counts processed instructions. -/
structure AxdimmUnit where
  base : Mem
  inst : Mem
  psum : OutputBuffers
  tags : OutputBuffers
  processedInstNum : Nat

namespace AxdimmSim

variable (addF32 : BitVec 32 → BitVec 32 → BitVec 32)

/-- `sparse_ft_sum<T>` into the write buffer. -/
def sparseFtSum (add : BitVec 32 → BitVec 32 → BitVec 32) (base : Mem) (cunitAddr outputIdx bytesPerIdx : Nat)
    (psum : OutputBuffers) : Mem :=
  psum.mem.transform (fun x acc => add acc x) (psumDims.size * psum.writeIdx + outputIdx * bytesPerIdx) base
    cunitAddr (bytesPerIdx / 4)

/-- The tag half of `sparse_ft_sum_tagged`. -/
def tagSum (base : Mem) (cunitAddr outputIdx bytesPerIdx : Nat) (tags : OutputBuffers) : Mem :=
  let tag := tagsDims.size * tags.writeIdx + outputIdx * Topology.axdimm.alignedTagSize
  tags.mem.writeLE tag 16 (tags.mem.readLE tag 16 + base.readLE (cunitAddr + bytesPerIdx) 16)

/-- The sums of one instruction: the new contents of the psum and tag blocks. -/
def sumInstr (bytesPerIdx : Nat) (isTagged : Bool) (instr : DecodedInst) (u : AxdimmUnit) :
    Except ExecError (Mem × Mem) :=
  let cunitAddr := Ranked.encodeAddressFromInstruction instr
  match instr.opcode with
  | 0 => .ok (sparseFtSum addF32 u.base cunitAddr instr.outputIdx bytesPerIdx u.psum, u.tags.mem)
  | 2 | 3 =>
    if isTagged then
      .ok (sparseFtSum (· + ·) u.base cunitAddr instr.outputIdx bytesPerIdx u.psum,
        tagSum u.base cunitAddr instr.outputIdx bytesPerIdx u.tags)
    else .ok (sparseFtSum (· + ·) u.base cunitAddr instr.outputIdx bytesPerIdx u.psum, u.tags.mem)
  | opcode => .error (.invalidOpcode opcode)

/-- One instruction of `exec_trace`: the sums, then the dirty ranges. -/
def execInstr (bytesPerIdx : Nat) (isTagged : Bool) (instr : DecodedInst) (u : AxdimmUnit) :
    Except ExecError AxdimmUnit :=
  match sumInstr addF32 bytesPerIdx isTagged instr u with
  | .error e => .error e
  | .ok (psumMem, tagsMem) =>
    let psumStart := instr.outputIdx * bytesPerIdx
    let tagsStart := instr.outputIdx * Topology.axdimm.alignedTagSize
    .ok { u with
      psum := OutputBuffers.markDirty psumStart (psumStart + bytesPerIdx) { u.psum with mem := psumMem }
      tags :=
        if isTagged then
          OutputBuffers.markDirty tagsStart (tagsStart + Topology.axdimm.alignedTagSize) { u.tags with mem := tagsMem }
        else { u.tags with mem := tagsMem } }

/-- The loop of `exec_trace` after the header: at most `n` more words, the next one being word `i`. -/
def execLoop (bytesPerIdx : Nat) (isTagged : Bool) : Nat → Nat → AxdimmUnit → Except ExecError AxdimmUnit
  | 0, _, u => .ok u
  | n + 1, i, u =>
    let instr := decodeInstruction (u.inst.readLE (8 * i) 8)
    match execInstr addF32 bytesPerIdx isTagged instr u with
    | .error e => .error e
    | .ok u =>
      if instr.traceEnd ≠ 0 then .ok { u with processedInstNum := i + 1 }
      else execLoop bytesPerIdx isTagged n (i + 1) u

/-- The feature size a header asks for. -/
def headerBytes (rawInstr : Nat) : Nat := 64 <<< (rawInstr &&& 0x03)

/-- The tag bit of a header. -/
def headerTagged (rawInstr : Nat) : Bool := (rawInstr &&& (1 <<< 8)) ≠ 0

/-- `AxdimmSimulatorCore::exec_trace`. -/
def execTrace (u : AxdimmUnit) : Except ExecError AxdimmUnit :=
  let header := u.inst.readLE 0 8
  execLoop addF32 (headerBytes header) (headerTagged header) (Topology.axdimm.instPerSingleBuf - 1) 1 u

/-- `AxdimmSimulatorCore::shift_buffers`. -/
def shiftBuffers (u : AxdimmUnit) : AxdimmUnit :=
  { u with psum := u.psum.shiftBuffers psumDims, tags := u.tags.shiftBuffers tagsDims }

/-- `handle_psum_buf_read`, after a read from the front of the read buffer. -/
def handlePsumBufRead (u : AxdimmUnit) : AxdimmUnit :=
  { u with psum := u.psum.clearBufCommon psumDims u.psum.readIdx 0 }

/-- `handle_tags_buf_read`. -/
def handleTagsBufRead (u : AxdimmUnit) : AxdimmUnit :=
  { u with tags := u.tags.clearBufCommon tagsDims u.tags.readIdx 0 }

/-- `AxdimmSimulatorCore::clear_buffers`. -/
def clearBuffers (u : AxdimmUnit) : AxdimmUnit :=
  { u with psum := u.psum.clearAll psumDims, tags := u.tags.clearAll tagsDims }

end AxdimmSim

/-- An operation on the core. Between executions the host stores tables and traces. -/
inductive CoreOp where
  | execTrace
  | shiftBuffers
  | readPsum
  | readTags
  | clearBuffers
  | store (base inst : Mem)

/-- All compute units. -/
abbrev AxdimmCore := Nat → AxdimmUnit

namespace AxdimmSim

variable (addF32 : BitVec 32 → BitVec 32 → BitVec 32)

/-- The effect of an operation on the unit it is for. -/
def unitStep (u : AxdimmUnit) : CoreOp → Except ExecError AxdimmUnit
  | .execTrace       => execTrace addF32 u
  | .shiftBuffers    => .ok (shiftBuffers u)
  | .readPsum        => .ok (handlePsumBufRead u)
  | .readTags        => .ok (handleTagsBufRead u)
  | .clearBuffers    => .ok (clearBuffers u)
  | .store base inst => .ok { u with base := base, inst := inst }

/-- A unit through a list of operations. -/
def runUnit (u : AxdimmUnit) : List CoreOp → Except ExecError AxdimmUnit
  | []        => .ok u
  | op :: ops =>
    match unitStep addF32 u op with
    | .error e => .error e
    | .ok u    => runUnit u ops

/-! ## Valid traces -/

/-- The instructions a trace makes the core execute: up to and including the first with the end mark. -/
def executed (inst : Mem) : Nat → Nat → List DecodedInst
  | 0, _     => []
  | n + 1, i =>
    let instr := decodeInstruction (inst.readLE (8 * i) 8)
    instr :: if instr.traceEnd ≠ 0 then [] else executed inst n (i + 1)

/-- A known opcode, and an output that fits in its buffers. -/
structure InstOk (bytesPerIdx : Nat) (isTagged : Bool) (instr : DecodedInst) : Prop where
  opcode : instr.opcode = 0 ∨ instr.opcode = 2 ∨ instr.opcode = 3
  psum : instr.outputIdx * bytesPerIdx + bytesPerIdx ≤ psumDims.size
  tags : isTagged = true →
    instr.outputIdx * Topology.axdimm.alignedTagSize + Topology.axdimm.alignedTagSize ≤ tagsDims.size

instance : Decidable (InstOk bytesPerIdx isTagged instr) :=
  decidable_of_iff
    ((instr.opcode = 0 ∨ instr.opcode = 2 ∨ instr.opcode = 3) ∧
      instr.outputIdx * bytesPerIdx + bytesPerIdx ≤ psumDims.size ∧
      (isTagged = true →
        instr.outputIdx * Topology.axdimm.alignedTagSize + Topology.axdimm.alignedTagSize ≤ tagsDims.size))
    ⟨fun h => ⟨h.1, h.2.1, h.2.2⟩, fun h => ⟨h.opcode, h.psum, h.tags⟩⟩

/-- A valid trace in the instruction block. -/
def ValidTrace (inst : Mem) : Prop :=
  ∀ instr ∈ executed inst (Topology.axdimm.instPerSingleBuf - 1) 1,
    InstOk (headerBytes (inst.readLE 0 8)) (headerTagged (inst.readLE 0 8)) instr

/-- The operation may be applied in this state. -/
def Applicable (op : CoreOp) (u : AxdimmUnit) : Prop :=
  match op with
  | .execTrace => ValidTrace u.inst
  | _          => True

instance (inst : Mem) : Decidable (ValidTrace inst) := inferInstanceAs (Decidable (∀ instr ∈ _, _))

instance : ∀ (op : CoreOp) (u : AxdimmUnit), Decidable (Applicable op u)
  | .execTrace, u => inferInstanceAs (Decidable (ValidTrace u.inst))
  | .shiftBuffers, _ | .readPsum, _ | .readTags, _ | .clearBuffers, _ | .store _ _, _ => isTrue trivial

/-! ## Clean units -/

/-- Every byte outside the dirty ranges is zero. -/
structure Clean (u : AxdimmUnit) : Prop where
  psum : u.psum.Clean psumDims
  tags : u.tags.Clean tagsDims

/-- The buffers an operation has just cleared are zero. -/
def ClearedZero (op : CoreOp) (u : AxdimmUnit) : Prop :=
  match op with
  | .readPsum     => u.psum.AllZero psumDims u.psum.readIdx
  | .readTags     => u.tags.AllZero tagsDims u.tags.readIdx
  | .clearBuffers => (∀ i < psumDims.num, u.psum.AllZero psumDims i) ∧ ∀ i < tagsDims.num, u.tags.AllZero tagsDims i
  | _             => True

/-- The buffers an operation is about to clear have no dirty byte out of its reach. -/
def ClearsReach (op : CoreOp) (u : AxdimmUnit) : Prop :=
  match op with
  | .readPsum     => u.psum.NoResidue psumDims u.psum.readIdx
  | .readTags     => u.tags.NoResidue tagsDims u.tags.readIdx
  | .clearBuffers => (∀ i < psumDims.num, u.psum.NoResidue psumDims i) ∧
                      ∀ i < tagsDims.num, u.tags.NoResidue tagsDims i
  | _             => True

/-- The dirty ranges an operation is about to clear start in the first chunk of their buffers. -/
def ClearsFromFront (op : CoreOp) (u : AxdimmUnit) : Prop :=
  match op with
  | .readPsum     => u.psum.StartsInFront u.psum.readIdx
  | .readTags     => u.tags.StartsInFront u.tags.readIdx
  | .clearBuffers => (∀ i < psumDims.num, u.psum.StartsInFront i) ∧ ∀ i < tagsDims.num, u.tags.StartsInFront i
  | _             => True

instance (b : OutputBuffers) (i : Nat) : Decidable (b.StartsInFront i) := inferInstanceAs (Decidable (_ ∨ _))

instance : ∀ (op : CoreOp) (u : AxdimmUnit), Decidable (ClearsFromFront op u)
  | .readPsum, u => inferInstanceAs (Decidable (u.psum.StartsInFront u.psum.readIdx))
  | .readTags, u => inferInstanceAs (Decidable (u.tags.StartsInFront u.tags.readIdx))
  | .clearBuffers, u =>
      inferInstanceAs (Decidable ((∀ i < psumDims.num, u.psum.StartsInFront i) ∧
        ∀ i < tagsDims.num, u.tags.StartsInFront i))
  | .execTrace, _ | .shiftBuffers, _ | .store _ _, _ => isTrue trivial

/-! ## One operation -/

section Step

variable {u : AxdimmUnit} {bytesPerIdx : Nat} {isTagged : Bool} {instr : DecodedInst}

theorem sparseFtSum_other (add : BitVec 32 → BitVec 32 → BitVec 32) {base : Mem} {addr idx : Nat}
    {psum : OutputBuffers} {x : Nat}
    (hx : x < psumDims.size * psum.writeIdx + idx * bytesPerIdx ∨
      psumDims.size * psum.writeIdx + (idx * bytesPerIdx + bytesPerIdx) ≤ x) :
    sparseFtSum add base addr idx bytesPerIdx psum x = psum.mem x :=
  Mem.transform_apply_disjoint (by omega)

theorem tagSum_other {base : Mem} {addr idx : Nat} {tags : OutputBuffers} {x : Nat}
    (hx : x < tagsDims.size * tags.writeIdx + idx * Topology.axdimm.alignedTagSize ∨
      tagsDims.size * tags.writeIdx + (idx * Topology.axdimm.alignedTagSize + Topology.axdimm.alignedTagSize) ≤ x) :
    tagSum base addr idx bytesPerIdx tags x = tags.mem x := by
  have hsize : Topology.axdimm.alignedTagSize = 64 := rfl
  unfold tagSum Mem.writeLE
  exact if_neg (by omega)

/-- The sums of an instruction stay within its output. -/
theorem sumInstr_frame (h : InstOk bytesPerIdx isTagged instr) :
    ∃ psumMem tagsMem, sumInstr addF32 bytesPerIdx isTagged instr u = .ok (psumMem, tagsMem) ∧
      (∀ x, x < psumDims.size * u.psum.writeIdx + instr.outputIdx * bytesPerIdx ∨
        psumDims.size * u.psum.writeIdx + (instr.outputIdx * bytesPerIdx + bytesPerIdx) ≤ x →
          psumMem x = u.psum.mem x) ∧
      (∀ x, isTagged = false ∨ x < tagsDims.size * u.tags.writeIdx + instr.outputIdx * Topology.axdimm.alignedTagSize ∨
        tagsDims.size * u.tags.writeIdx +
          (instr.outputIdx * Topology.axdimm.alignedTagSize + Topology.axdimm.alignedTagSize) ≤ x →
          tagsMem x = u.tags.mem x) := by
  unfold sumInstr
  rcases h.opcode with h0 | h0
  · rw [h0]
    exact ⟨_, _, rfl, fun x hx => sparseFtSum_other _ hx, fun _ _ => rfl⟩
  · have hop : (instr.opcode = 2 ∨ instr.opcode = 3) := h0
    cases isTagged with
    | false =>
        rcases hop with h0 | h0 <;> rw [h0] <;>
          exact ⟨_, _, rfl, fun x hx => sparseFtSum_other _ hx, fun _ _ => rfl⟩
    | true =>
        have htags : ∀ x, (true = false ∨ x < tagsDims.size * u.tags.writeIdx +
            instr.outputIdx * Topology.axdimm.alignedTagSize ∨ tagsDims.size * u.tags.writeIdx +
              (instr.outputIdx * Topology.axdimm.alignedTagSize + Topology.axdimm.alignedTagSize) ≤ x) →
            tagSum u.base (Ranked.encodeAddressFromInstruction instr) instr.outputIdx bytesPerIdx u.tags x
              = u.tags.mem x :=
          fun x hx => tagSum_other (hx.resolve_left nofun)
        rcases hop with h0 | h0 <;> rw [h0] <;>
          exact ⟨_, _, rfl, fun x hx => sparseFtSum_other _ hx, htags⟩

/-- **An instruction keeps the buffers clean.** -/
theorem execInstr_clean (h : InstOk bytesPerIdx isTagged instr) (hu : Clean u) :
    ∃ u', execInstr addF32 bytesPerIdx isTagged instr u = .ok u' ∧ Clean u' ∧ u'.inst = u.inst := by
  obtain ⟨psumMem, tagsMem, hsum, hpsum, htags⟩ := sumInstr_frame addF32 (u := u) h
  simp only [execInstr, hsum]
  refine ⟨_, rfl, ⟨hu.psum.write h.psum hpsum, ?_⟩, rfl⟩
  cases isTagged with
  | false =>
      have hmem : tagsMem = u.tags.mem := funext fun x => htags x (Or.inl rfl)
      rw [hmem]
      exact hu.tags
  | true => exact hu.tags.write (h.tags rfl) fun x hx => htags x (Or.inr hx)

/-- The loop, by induction on the words left. -/
theorem execLoop_clean {n i : Nat} (hu : Clean u)
    (hok : ∀ instr ∈ executed u.inst n i, InstOk bytesPerIdx isTagged instr) :
    ∃ u', execLoop addF32 bytesPerIdx isTagged n i u = .ok u' ∧ Clean u' := by
  induction n generalizing i u with
  | zero => exact ⟨u, rfl, hu⟩
  | succ n ih =>
      rw [executed] at hok
      obtain ⟨u', hstep, hclean, hinst⟩ := execInstr_clean addF32 (hok _ List.mem_cons_self) hu
      simp only [execLoop, hstep]
      split
      · exact ⟨_, rfl, hclean.psum, hclean.tags⟩
      · rename_i hend
        refine ih hclean fun instr hmem => hok instr ?_
        rw [hinst] at hmem
        rw [if_neg hend]
        exact List.mem_cons_of_mem _ hmem

/-- **`exec_trace` keeps the buffers clean** and does not abort on a valid trace. -/
theorem execTrace_clean (hu : Clean u) (h : ValidTrace u.inst) :
    ∃ u', execTrace addF32 u = .ok u' ∧ Clean u' :=
  execLoop_clean addF32 hu h

/-- **One operation on a clean unit**: the unit stays clean, and what is cleared is zero, exactly when the clears
    reach all dirty bytes. -/
theorem unitStep_clean_iff {op : CoreOp} {u' : AxdimmUnit} (hu : Clean u) (happlicable : Applicable op u)
    (hstep : unitStep addF32 u op = .ok u') : (Clean u' ∧ ClearedZero op u') ↔ ClearsReach op u := by
  cases op with
  | execTrace =>
      obtain ⟨w, hw, hclean⟩ := execTrace_clean addF32 hu happlicable
      obtain rfl : u' = w := Except.ok.inj (hstep.symm.trans hw)
      exact iff_of_true ⟨hclean, trivial⟩ trivial
  | shiftBuffers =>
      obtain rfl := Except.ok.inj hstep
      exact iff_of_true ⟨⟨hu.psum.shiftBuffers, hu.tags.shiftBuffers⟩, trivial⟩ trivial
  | readPsum =>
      obtain rfl := Except.ok.inj hstep
      simp only [ClearedZero, ClearsReach, handlePsumBufRead, OutputBuffers.clear_readIdx]
      constructor
      · rintro ⟨-, hzero⟩
        exact (OutputBuffers.allZero_clear_iff hu.psum hu.psum.readIdx).mp hzero
      · intro hres
        exact ⟨⟨hu.psum.clear hu.psum.readIdx hres, hu.tags⟩,
          (OutputBuffers.allZero_clear_iff hu.psum hu.psum.readIdx).mpr hres⟩
  | readTags =>
      obtain rfl := Except.ok.inj hstep
      simp only [ClearedZero, ClearsReach, handleTagsBufRead, OutputBuffers.clear_readIdx]
      constructor
      · rintro ⟨-, hzero⟩
        exact (OutputBuffers.allZero_clear_iff hu.tags hu.tags.readIdx).mp hzero
      · intro hres
        exact ⟨⟨hu.psum, hu.tags.clear hu.tags.readIdx hres⟩,
          (OutputBuffers.allZero_clear_iff hu.tags hu.tags.readIdx).mpr hres⟩
  | clearBuffers =>
      obtain rfl := Except.ok.inj hstep
      have hp := OutputBuffers.clearAll_iff hu.psum
      have ht := OutputBuffers.clearAll_iff hu.tags
      constructor
      · rintro ⟨⟨hcp, hct⟩, hzp, hzt⟩
        exact ⟨hp.mp ⟨hcp, hzp⟩, ht.mp ⟨hct, hzt⟩⟩
      · rintro ⟨hrp, hrt⟩
        exact ⟨⟨(hp.mpr hrp).1, (ht.mpr hrt).1⟩, (hp.mpr hrp).2, (ht.mpr hrt).2⟩
  | store base inst =>
      obtain rfl := Except.ok.inj hstep
      exact iff_of_true ⟨⟨hu.psum, hu.tags⟩, trivial⟩ trivial

theorem Clean.clearsReach {op : CoreOp} (hu : Clean u) (h : ClearsFromFront op u) : ClearsReach op u := by
  cases op with
  | execTrace | shiftBuffers | store => trivial
  | readPsum => exact hu.psum.noResidue_of_startsInFront hu.psum.readIdx h
  | readTags => exact hu.tags.noResidue_of_startsInFront hu.tags.readIdx h
  | clearBuffers =>
      exact ⟨fun i hi => hu.psum.noResidue_of_startsInFront hi (h.1 i hi),
        fun i hi => hu.tags.noResidue_of_startsInFront hi (h.2 i hi)⟩

end Step

/-! ## Runs of the core -/

/-- A unit as the constructor leaves it, over any memory contents. -/
def initUnit (base inst psum tags : Mem) : AxdimmUnit where
  base := base
  inst := inst
  psum := .init psumDims psum
  tags := .init tagsDims tags
  processedInstNum := 0

/-- The core after its constructor. -/
def Initial (s : AxdimmCore) : Prop := ∀ cu, ∃ base inst psum tags, s cu = initUnit base inst psum tags

/-- An applicable operation on unit `cu`. -/
structure CoreStep (cu : Nat) (op : CoreOp) (s s' : AxdimmCore) : Prop where
  applicable : Applicable op (s cu)
  step : ∃ u, unitStep addF32 (s cu) op = .ok u ∧ s' = Function.update s cu u

/-- A step whose clears reach all dirty bytes. -/
def ReachingStep (s s' : AxdimmCore) : Prop :=
  ∃ cu op, CoreStep addF32 cu op s s' ∧ ClearsReach op (s cu)

/-- All units are clean. -/
def AllClean (s : AxdimmCore) : Prop := ∀ cu, Clean (s cu)

variable {addF32} {s s' : AxdimmCore} {cu : Nat} {op : CoreOp}

theorem Initial.allClean (h : Initial s) : AllClean s := by
  intro cu
  obtain ⟨base, inst, psum, tags, hu⟩ := h cu
  rw [hu]
  exact ⟨OutputBuffers.clean_init _ _, OutputBuffers.clean_init _ _⟩

/-- One operation on a clean core. -/
theorem CoreStep.clean_iff (h : CoreStep addF32 cu op s s') (hs : AllClean s) :
    (AllClean s' ∧ ClearedZero op (s' cu)) ↔ ClearsReach op (s cu) := by
  obtain ⟨u, hu, rfl⟩ := h.step
  rw [← unitStep_clean_iff addF32 (hs cu) h.applicable hu, Function.update_self]
  refine and_congr_left fun _ => ⟨?_, ?_⟩
  · intro hall
    simpa only [Function.update_self] using hall cu
  · intro hclean c
    by_cases hc : c = cu
    · subst hc
      rwa [Function.update_self]
    · rw [Function.update_of_ne hc]
      exact hs c

theorem ReachingStep.allClean (h : ReachingStep addF32 s s') (hs : AllClean s) : AllClean s' := by
  obtain ⟨cu, op, hstep, hreach⟩ := h
  exact ((hstep.clean_iff hs).mpr hreach).1

/-- A list of operations on one unit that are applicable and clear from the front, as a run of the core. -/
theorem run_of_runUnit {ops : List CoreOp} {u : AxdimmUnit} (hs : AllClean s)
    (hfront : Allowed (fun u op => (unitStep addF32 u op).toOption) (fun u op => Applicable op u ∧ ClearsFromFront op u)
      (s cu) ops)
    (hrun : runUnit addF32 (s cu) ops = .ok u) : Run (ReachingStep addF32) s (Function.update s cu u) := by
  induction ops generalizing s with
  | nil =>
      obtain rfl := Except.ok.inj hrun
      rw [Function.update_eq_self]
  | cons op ops ih =>
      rw [runUnit] at hrun
      cases hstep : unitStep addF32 (s cu) op with
      | error e =>
          rw [hstep] at hrun
          cases hrun
      | ok v =>
          rw [hstep] at hrun
          obtain ⟨⟨happlicable, hclears⟩, hrest⟩ := hfront v (by simp [hstep, Except.toOption])
          have hreaching : ReachingStep addF32 s (Function.update s cu v) :=
            ⟨cu, op, ⟨happlicable, v, hstep, rfl⟩, (hs cu).clearsReach hclears⟩
          have hself : Function.update s cu v cu = v := Function.update_self ..
          have htail := ih (hreaching.allClean hs) (hself.symm ▸ hrest) (hself.symm ▸ hrun)
          rw [Function.update_idem] at htail
          exact .head hreaching htail

end AxdimmSim

open AxdimmSim

/-- **Clean buffers along every run.** From the constructor on, while the clears reach all dirty bytes, every
    byte outside a dirty range is zero in every state. The next operation keeps this, and leaves the buffers it
    clears zero, exactly when its own clears reach all dirty bytes; they do when the dirty ranges start in the
    first chunk of their buffers. -/
theorem buffers_clean_iff (addF32 : BitVec 32 → BitVec 32 → BitVec 32) {s₀ s : AxdimmCore} (hinit : Initial s₀)
    (hrun : Run (ReachingStep addF32) s₀ s) :
    AllClean s ∧
      ∀ cu op, (ClearsFromFront op (s cu) → ClearsReach op (s cu)) ∧
        ∀ s', CoreStep addF32 cu op s s' → ((AllClean s' ∧ ClearedZero op (s' cu)) ↔ ClearsReach op (s cu)) := by
  have hclean : AllClean s := Run.invariant (fun _ _ ha hab => hab.allClean ha) hinit.allClean hrun
  refine ⟨hclean, fun cu op => ⟨(hclean cu).clearsReach, ?_⟩⟩
  intro s' hstep
  exact hstep.clean_iff hclean

/-- A core over memory that is full of garbage. -/
def garbageCore : AxdimmCore := fun _ => initUnit (fun _ => 1) (fun _ => 2) (fun _ => 3) (fun _ => 4)

/-- A stand-in for float addition, exact when an operand is zero. -/
def addF32Sample (a b : BitVec 32) : BitVec 32 := if a = 0 then b else if b = 0 then a else a ||| b

/-- A tagged header, two rows into output 0 and a third one, with the end mark, into output 1. -/
def sumTrace : List Nat := [0x100, 0x8000000000000000, 0x8000000000000001, 0x8003000000000000]

/-- Execute, shift, and read both buffers. -/
def executeAndRead : List CoreOp := [.execTrace, .shiftBuffers, .readPsum, .readTags]

/-- Three executions of `sumTrace` on a table of ones; the first two are read. -/
def threeExecutions : List CoreOp :=
  [.clearBuffers, .store (fun _ => 1) (Mem.writeWords 8 (fun _ => 0) 0 sumTrace)] ++ executeAndRead ++ executeAndRead ++
    [.execTrace, .shiftBuffers]

theorem threeExecutions_front :
    Allowed (fun u op => (unitStep addF32Sample u op).toOption) (fun u op => Applicable op u ∧ ClearsFromFront op u)
      (garbageCore 0) threeExecutions := by
  decide +kernel

theorem threeExecutions_eval :
    (match runUnit addF32Sample (garbageCore 0) threeExecutions with
      | .ok u => (u.psum.readIdx, u.psum.minOffset 0, [0, 63, 64, 127, 128].map u.psum.mem,
          [0, 15, 16, 64].map u.tags.mem)
      | .error _ => (0, 0, [], [])) = (0, 0, [2, 2, 1, 1, 0], [2, 2, 0, 1]) := by
  decide +kernel

/-- **Three executions on memory full of garbage.** The third one uses the buffers of the first: they hold the sums of
    two rows and of one row and nothing else, and the read that comes next leaves the psum buffer zero. -/
theorem buffers_clean_iff_three_executions :
    ∃ u, runUnit addF32Sample (garbageCore 0) threeExecutions = .ok u ∧
      Run (ReachingStep addF32Sample) garbageCore (Function.update garbageCore 0 u) ∧
      AllClean (Function.update garbageCore 0 u) ∧
      [0, 63, 64, 127, 128].map u.psum.mem = [2, 2, 1, 1, 0] ∧ [0, 15, 16, 64].map u.tags.mem = [2, 2, 0, 1] ∧
      (handlePsumBufRead u).psum.AllZero psumDims 0 := by
  have hinit : Initial garbageCore := fun _ => ⟨_, _, _, _, rfl⟩
  have heval := threeExecutions_eval
  cases h : runUnit addF32Sample (garbageCore 0) threeExecutions with
  | error e => simp [h] at heval
  | ok u =>
      rw [h] at heval
      simp only [Prod.mk.injEq] at heval
      obtain ⟨hread, hmin, hpsum, htags⟩ := heval
      have hrun := run_of_runUnit hinit.allClean threeExecutions_front h
      obtain ⟨hclean, hnext⟩ := buffers_clean_iff addF32Sample hinit hrun
      refine ⟨u, rfl, hrun, hclean, hpsum, htags, ?_⟩
      obtain ⟨hfront, hstep⟩ := hnext 0 .readPsum
      simp only [Function.update_self] at hfront hstep
      have hreach := hfront (show u.psum.StartsInFront u.psum.readIdx from Or.inr (by rw [hread, hmin]; rfl))
      have hzero := ((hstep _ ⟨trivial, _, rfl, rfl⟩).mpr hreach).2
      rw [Function.update_self] at hzero
      have hidx : (handlePsumBufRead u).psum.readIdx = 0 := by
        rw [← hread]
        exact OutputBuffers.clear_readIdx _ _
      exact hidx ▸ hzero

/-- `dummy_inst`: a header and 15 times the same instruction, which carries the end mark. -/
def dummyInst : List Nat := 0 :: List.replicate 15 0xffd000000000000

/-- The unit after its first clear, the dummy trace, a rotation and the clear of the buffer the dummy trace
    wrote to. -/
def afterDummy : Except ExecError AxdimmUnit :=
  runUnit addF32Sample (initUnit (fun _ => 0) (fun _ => 0) (fun _ => 0) (fun _ => 0))
    [.clearBuffers, .store (fun _ => 1) (Mem.writeWords 8 (fun _ => 0) 0 dummyInst), .execTrace, .shiftBuffers,
      .readPsum]

theorem dummyInst_valid : ValidTrace (Mem.writeWords 8 (fun _ => 0) 0 dummyInst) := by
  have hexec : executed (Mem.writeWords 8 (fun _ => 0) 0 dummyInst) (Topology.axdimm.instPerSingleBuf - 1) 1
      = [decodeInstruction 0xffd000000000000] := by decide +kernel
  have hheader : Mem.readLE (Mem.writeWords 8 (fun _ => 0) 0 dummyInst) 0 8 = 0 := by decide +kernel
  intro instr hinstr
  rw [hexec, List.mem_singleton] at hinstr
  rw [hheader, hinstr]
  exact ⟨by decide, by decide, nofun⟩

theorem afterDummy_eval :
    (match afterDummy with
      | .ok u => (u.psum.readIdx, u.psum.minOffset 0, u.psum.maxOffset 0, u.psum.mem 130944)
      | .error _ => (0, 0, 0, 0)) = (0, 131072, 0, 1) := by
  decide +kernel

/-- **The dummy trace leaves a residue.** It adds a row at output index 2046, so that bytes 130944 to 131007 are
    dirty; the clear after the read zeroes bytes 0 to 255 instead and forgets the dirty range. -/
theorem dummy_trace_leaves_residue :
    ValidTrace (Mem.writeWords 8 (fun _ => 0) 0 dummyInst) ∧
      ∃ u, afterDummy = .ok u ∧ ¬ Clean u ∧ ¬ u.psum.AllZero psumDims u.psum.readIdx := by
  refine ⟨dummyInst_valid, ?_⟩
  have heval := afterDummy_eval
  cases h : afterDummy with
  | error e => simp [h] at heval
  | ok u =>
      rw [h] at heval
      simp only [Prod.mk.injEq] at heval
      obtain ⟨hread, hmin, hmax, hbyte⟩ := heval
      have hpos : psumDims.size * 0 + 130944 = 130944 := rfl
      refine ⟨u, rfl, ?_, ?_⟩
      · intro hclean
        have := hclean.psum.zero 0 (by decide) 130944 (by decide) (by omega)
        rw [hpos, hbyte] at this
        exact absurd this (by decide)
      · intro hzero
        have := hzero 130944 (by decide)
        rw [hread, hpos, hbyte] at this
        exact absurd this (by decide)

end Pnm.Sls

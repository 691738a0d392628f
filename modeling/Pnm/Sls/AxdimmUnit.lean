import Pnm.Sls.AxdimmExec
import Pnm.Sls.AxdimmPipeline

/-!
# `Sls.AxdimmUnit` — a pack on one AXDIMM unit refines the double-buffering pipeline

The model of `AxdimmReductionRunner::run_on_pack` and of the simulator's worker thread on the memory of one unit. The
host writes traces, rotates and clears the psum buffers and copies results to the user; meanwhile the worker executes
the trace in the instruction block word by word.

`Sls.AxdimmPipeline` describes the same two processes on buffers that are lists of trace numbers. `Refines` relates
the two levels: the control state is the same, and every psum buffer holds the sums of the traces in its list, the
write buffer also those of the words executed so far. Every step of the unit is a step of the pipeline or none
(`HostStep.refines`, `WorkerStep.refines`), so that the pipeline's invariant says when the host may read a buffer.
-/

namespace Pnm.Sls

open Pnm.Lib AxdimmSim

namespace Axdimm

/-- Where the host is in `run_on_pack`. `enable` is the end of the unit's constructor; the stages from `read` on are
    `read_output_buffers` for the execution before. -/
inductive Host where
  | enable
  | wait
  | writeTrace
  | shiftBuffers
  | resetPoll
  | setEnable
  | read
  | clear (tmpBuffer : Mem)
  | writeResult (tmpBuffer : Mem)
  | finished

/-- Where the worker is in the body of `worker_job`; in `exec_trace`, the next word is word `i`. -/
inductive Worker where
  | idle
  | running (bytesPerIdx : Nat) (isTagged : Bool) (i : Nat)
  | disabling
  | signalling

/-- A unit: its worker thread, its exec and poll registers and its memory. -/
structure UnitState where
  worker : Worker
  execReg : Bool
  pollReg : Bool
  unit : AxdimmUnit

end Axdimm

open Axdimm

namespace AxdimmSetup

variable (S : AxdimmSetup)

/-- **A step of the host** of pack `p` on unit `c`, in iteration `iter`: how it changes its place, the unit and the
    user's psum. -/
inductive HostStep (p c : Nat) : Nat → Host → UnitState → Mem → Nat → Host → UnitState → Mem → Prop where
  | enable {iter x psum} :
      HostStep p c iter .enable x psum iter (if (S.execs p).length = 0 then .wait else .writeTrace)
        { x with unit := clearBuffers x.unit } psum
  | wait {iter x psum} (hpoll : x.pollReg = true) :
      HostStep p c iter .wait x psum iter (if iter ≤ (S.execs p).length then .writeTrace else .finished) x psum
  | writeTrace {iter x psum} :
      HostStep p c iter .writeTrace x psum iter .shiftBuffers
        { x with unit := { x.unit with inst := Mem.writeWords 8 x.unit.inst 0 (S.traceWords p c iter) } } psum
  | shiftBuffers {iter x psum} :
      HostStep p c iter .shiftBuffers x psum iter .resetPoll { x with unit := shiftBuffers x.unit } psum
  | resetPoll {iter x psum} :
      HostStep p c iter .resetPoll x psum iter .setEnable { x with pollReg := false } psum
  | firstEnable {x psum} :
      HostStep p c 0 .setEnable x psum 1 .wait { x with execReg := true } psum
  | setEnable {iter x psum} (hi : iter ≠ 0) :
      HostStep p c iter .setEnable x psum iter .read { x with execReg := true } psum
  | read {iter x psum tmp e} (he : (S.execs p)[iter - 1]? = some e) :
      HostStep p c iter .read x psum iter
        (.clear (Mem.copy tmp 0 x.unit.psum.mem (psumDims.size * x.unit.psum.readIdx) e.psumSize)) x psum
  | clear {iter x psum tmp} :
      HostStep p c iter (.clear tmp) x psum iter (.writeResult tmp) { x with unit := handlePsumBufRead x.unit } psum
  | writeResult {iter x psum tmp e} (he : (S.execs p)[iter - 1]? = some e) :
      HostStep p c iter (.writeResult tmp) x psum (iter + 1) .wait x
        (writeResult (S.op.sparseFtDataNb .axdimm) (S.op.psumAddr .axdimm) tmp e.tablesData 0 psum)

/-- **A step of the worker.** A word that cannot be executed throws, and there is no step. -/
inductive WorkerStep : UnitState → UnitState → Prop where
  | observe {x} (h : x.worker = .idle) (hexec : x.execReg = true) :
      WorkerStep x
        { x with worker := .running (headerBytes (x.unit.inst.readLE 0 8)) (headerTagged (x.unit.inst.readLE 0 8)) 1 }
  | word {x bytesPerIdx isTagged i u} (h : x.worker = .running bytesPerIdx isTagged i)
      (hi : i < Topology.axdimm.instPerSingleBuf)
      (hexec : execInstr S.addF32 bytesPerIdx isTagged (decodeInstruction (x.unit.inst.readLE (8 * i) 8)) x.unit
        = .ok u)
      (hend : (decodeInstruction (x.unit.inst.readLE (8 * i) 8)).traceEnd = 0) :
      WorkerStep x { x with worker := .running bytesPerIdx isTagged (i + 1), unit := u }
  | lastWord {x bytesPerIdx isTagged i u} (h : x.worker = .running bytesPerIdx isTagged i)
      (hi : i < Topology.axdimm.instPerSingleBuf)
      (hexec : execInstr S.addF32 bytesPerIdx isTagged (decodeInstruction (x.unit.inst.readLE (8 * i) 8)) x.unit
        = .ok u)
      (hend : (decodeInstruction (x.unit.inst.readLE (8 * i) 8)).traceEnd ≠ 0) :
      WorkerStep x { x with worker := .disabling, unit := { u with processedInstNum := i + 1 } }
  | blockEnd {x bytesPerIdx isTagged i} (h : x.worker = .running bytesPerIdx isTagged i)
      (hi : Topology.axdimm.instPerSingleBuf ≤ i) :
      WorkerStep x { x with worker := .disabling }
  | disable {x} (h : x.worker = .disabling) : WorkerStep x { x with worker := .signalling, execReg := false }
  | signal {x} (h : x.worker = .signalling) : WorkerStep x { x with worker := .idle, pollReg := true }

/-! ## The relation to the pipeline -/

end AxdimmSetup

/-- The iteration and the stage of the pipeline's host. A result is written to the user after the pipeline has left
    the iteration. -/
def Axdimm.Host.abs (readIdx iter : Nat) : Host → Nat × HostStage
  | enable        => (iter, .writeTrace)
  | wait          => (iter, .wait)
  | writeTrace    => (iter, .writeTrace)
  | shiftBuffers  => (iter, .shiftBuffers)
  | resetPoll     => (iter, .resetPoll)
  | setEnable     => (iter, .setEnable)
  | read          => (iter, .read)
  | clear _       => (iter, .reading readIdx)
  | writeResult _ => (iter + 1, .wait)
  | finished      => (iter, .finished)

/-- The stage of the pipeline's worker. -/
def Axdimm.Worker.abs (writeIdx : Nat) : Worker → WorkerStage
  | idle          => .idle
  | running _ _ _ => .running writeIdx
  | disabling     => .disabling
  | signalling    => .signalling

namespace AxdimmSetup

variable (S : AxdimmSetup)

/-- The rows of the words that the worker has executed of the trace in the block. -/
def inFlight (p c : Nat) (inst : Option Nat) : Worker → List InstructionIR
  | .running _ _ i =>
    match inst with
    | some t => (S.traceIrs p c t).take (i - 1)
    | none   => []
  | _ => []

/-- **The refinement relation** between unit `c`, working on pack `p`, and the pipeline. -/
structure Refines (p c iter : Nat) (host : Host) (x : UnitState) (a : PipeState) : Prop where
  host : (a.iter, a.host) = host.abs x.unit.psum.readIdx iter
  worker : a.worker = x.worker.abs x.unit.psum.writeIdx
  execReg : a.execReg = x.execReg
  pollReg : a.pollReg = x.pollReg
  readIdx : a.readIdx = x.unit.psum.readIdx
  writeIdx : a.writeIdx = x.unit.psum.writeIdx
  inst : ∀ t, a.inst = some t → S.InBlock p c t x.unit.inst
  bounded : x.unit.psum.Bounded psumDims
  word : ∀ bytesPerIdx isTagged i, x.worker = .running bytesPerIdx isTagged i → ∃ t, a.inst = some t ∧
    bytesPerIdx = S.traceBytes p t ∧ isTagged = false ∧ 1 ≤ i ∧ i ≤ S.traceCount p c t
  buffers : ∀ b < psumDims.num, S.BufferSums x.unit.base x.unit.psum b
    ((a.buffers b).flatMap (S.traceIrs p c) ++
      if b = x.unit.psum.writeIdx then S.inFlight p c a.inst x.worker else [])

/-- A unit that nobody uses: its thread has nothing to do and its buffers can be cleared. -/
structure Idle (x : UnitState) : Prop where
  worker : x.worker = .idle
  execReg : x.execReg = false
  bounded : x.unit.psum.Bounded psumDims
  rotation : x.unit.psum.writeIdx = OutputBuffers.shiftIndex psumDims.num x.unit.psum.readIdx
  buffers : ∀ b < psumDims.num, Clearable x.unit.psum b

/-- The results of an execution, one after another from the front of a buffer. -/
def HoldsSums (e : Execution) (m : Mem) : Prop :=
  ∀ j key, e.keys[j]? = some key → ∀ k < S.op.sparseFeatureSize, m.word (j * S.bytes + 4 * k) = S.expected key k

variable {S} {p c iter iter' : Nat} {host host' : Host} {x x' : UnitState} {psum psum' : Mem} {a : PipeState}

/-- A unit as the constructor of the simulator leaves it. -/
theorem idle_init (base inst psum tags : Mem) (pollReg : Bool) :
    Idle ⟨.idle, false, pollReg, initUnit base inst psum tags⟩ where
  worker := rfl
  execReg := rfl
  bounded := (OutputBuffers.clean_init psumDims psum).toBounded
  rotation := by
    show 0 = OutputBuffers.shiftIndex psumDims.num (psumDims.num - 1)
    decide
  buffers := fun b _ => clearable_init psum b

theorem Refines.iter_eq (h : S.Refines p c iter host x a) : a.iter = (host.abs x.unit.psum.readIdx iter).1 :=
  congrArg Prod.fst h.host

theorem Refines.host_eq (h : S.Refines p c iter host x a) : a.host = (host.abs x.unit.psum.readIdx iter).2 :=
  congrArg Prod.snd h.host

/-- The worker is idle on both levels or on none. -/
theorem Refines.idle (h : S.Refines p c iter host x a) (ha : a.worker = .idle) : x.worker = .idle := by
  have hw := h.worker
  rw [ha] at hw
  cases hx : x.worker with
  | idle => rfl
  | running | disabling | signalling =>
      rw [hx] at hw
      cases hw

/-- An idle worker has no words in flight. -/
theorem append_inFlight_idle (irs : List InstructionIR) (b writeIdx : Nat) (inst : Option Nat) {w : Worker}
    (hw : w = .idle) : (irs ++ if b = writeIdx then S.inFlight p c inst w else []) = irs := by
  subst hw
  have hnil : S.inFlight p c inst .idle = [] := rfl
  rw [hnil, ite_self, List.append_nil]

theorem Refines.buffers_idle (h : S.Refines p c iter host x a) (hw : x.worker = .idle) {b : Nat}
    (hb : b < psumDims.num) :
    S.BufferSums x.unit.base x.unit.psum b ((a.buffers b).flatMap (S.traceIrs p c)) := by
  have hsums := h.buffers b hb
  rwa [append_inFlight_idle _ _ _ _ hw] at hsums

/-! ## The host -/

/-- After `clear_buffers` a unit is at the start of the pipeline. -/
theorem Idle.refines_start (h : Idle x) (hpoll : x.pollReg = false) (hexecs : (S.execs p).length ≠ 0) :
    S.Refines p c 0 .writeTrace { x with unit := clearBuffers x.unit }
      (PipeState.start (S.execs p).length psumDims.num x.unit.psum.readIdx) := by
  have hbounded := h.bounded.clearUpTo psumDims.num
  have hsums : ∀ b < psumDims.num, S.BufferSums x.unit.base (x.unit.psum.clearAll psumDims) b [] :=
    sums_clearAll h.bounded h.buffers
  have hidx : ∀ n, (x.unit.psum.clearUpTo psumDims n).readIdx = x.unit.psum.readIdx ∧
      (x.unit.psum.clearUpTo psumDims n).writeIdx = x.unit.psum.writeIdx := by
    intro n
    induction n with
    | zero => exact ⟨rfl, rfl⟩
    | succ n ih =>
        rw [OutputBuffers.clearUpTo_succ, OutputBuffers.clear_readIdx, ih.1]
        refine ⟨rfl, Eq.trans ?_ ih.2⟩
        unfold OutputBuffers.clearBufCommon
        split <;> rfl
  obtain ⟨hread, hwrite⟩ := hidx psumDims.num
  refine ⟨?_, ?_, ?_, ?_, ?_, ?_, ?_, hbounded, ?_, ?_⟩
  · unfold PipeState.start
    rw [if_neg hexecs]
    rfl
  · rw [h.worker]
    rfl
  · exact h.execReg.symm
  · exact hpoll.symm
  · exact hread.symm
  · exact (h.rotation.symm.trans hwrite.symm)
  · intro t ht
    cases ht
  · intro _ _ _ hrun
    rw [h.worker] at hrun
    cases hrun
  · intro b hb
    rw [append_inFlight_idle _ _ _ _ h.worker]
    exact hsums b hb

/-- A step that changes registers and the host's place only. -/
theorem Refines.move (h : S.Refines p c iter host x a) {a' : PipeState} {execReg pollReg : Bool}
    (hhost : (a'.iter, a'.host) = host'.abs x.unit.psum.readIdx iter') (hworker : a'.worker = a.worker)
    (hread : a'.readIdx = a.readIdx) (hwrite : a'.writeIdx = a.writeIdx) (hinst : a'.inst = a.inst)
    (hbuffers : a'.buffers = a.buffers) (hexec : a'.execReg = execReg) (hpoll : a'.pollReg = pollReg) :
    S.Refines p c iter' host' { x with execReg := execReg, pollReg := pollReg } a' where
  host := hhost
  worker := hworker.trans h.worker
  execReg := hexec
  pollReg := hpoll
  readIdx := hread.trans h.readIdx
  writeIdx := hwrite.trans h.writeIdx
  inst := by
    rw [hinst]
    exact h.inst
  bounded := h.bounded
  word := by
    rw [hinst]
    exact h.word
  buffers := by
    rw [hinst, hbuffers]
    exact h.buffers

/-- The host writes trace `iter` while the worker is idle. -/
theorem Refines.writeTrace (h : S.Refines p c iter .writeTrace x a) (hw : x.worker = .idle) :
    S.Refines p c iter .shiftBuffers
      { x with unit := { x.unit with inst := Mem.writeWords 8 x.unit.inst 0 (S.traceWords p c iter) } }
      { a with host := .shiftBuffers, inst := some a.iter } := by
  have hiter : a.iter = iter := h.iter_eq
  refine ⟨?_, h.worker, h.execReg, h.pollReg, h.readIdx, h.writeIdx, ?_, h.bounded, ?_, ?_⟩
  · show (a.iter, HostStage.shiftBuffers) = (iter, .shiftBuffers)
    rw [hiter]
  · intro t ht
    obtain rfl : a.iter = t := Option.some.inj ht
    rw [hiter]
    dsimp only
    exact ⟨_, rfl⟩
  · intro _ _ _ hrun
    rw [show x.worker = _ from hrun] at hw
    cases hw
  · intro b hb
    rw [append_inFlight_idle _ _ _ _ hw]
    exact h.buffers_idle hw hb

/-- The host rotates the buffers while the worker is idle. -/
theorem Refines.shiftBuffers (h : S.Refines p c iter .shiftBuffers x a) (hw : x.worker = .idle) :
    S.Refines p c iter .resetPoll { x with unit := AxdimmSim.shiftBuffers x.unit }
      { a with
          host := .resetPoll
          readIdx := OutputBuffers.shiftIndex psumDims.num a.readIdx
          writeIdx := OutputBuffers.shiftIndex psumDims.num a.writeIdx } := by
  have hiter : a.iter = iter := h.iter_eq
  have hwork : a.worker = .idle := by rw [h.worker, hw]; rfl
  refine ⟨?_, ?_, h.execReg, h.pollReg, ?_, ?_, h.inst, ?_, ?_, ?_⟩
  · show (a.iter, HostStage.resetPoll) = (iter, .resetPoll)
    rw [hiter]
  · show a.worker = _
    rw [hwork, hw]
    rfl
  · show OutputBuffers.shiftIndex psumDims.num a.readIdx = _
    rw [h.readIdx]
    rfl
  · show OutputBuffers.shiftIndex psumDims.num a.writeIdx = _
    rw [h.writeIdx]
    rfl
  · exact ⟨Nat.mod_lt _ psumDims.num_pos, Nat.mod_lt _ psumDims.num_pos, h.bounded.maxOffset⟩
  · intro _ _ _ hrun
    rw [show x.worker = _ from hrun] at hw
    cases hw
  · intro b hb
    rw [append_inFlight_idle _ _ _ _ hw]
    exact Sums.shiftBuffers (h.buffers_idle hw hb)

/-- While the host reads a buffer, no word is on its way into it. -/
theorem Refines.inFlight_reading (h : S.Refines p c iter host x a) {r : Nat}
    (inv : a.Inv (S.execs p).length psumDims.num r) (hhost : a.host = .reading x.unit.psum.readIdx) :
    (if x.unit.psum.readIdx = x.unit.psum.writeIdx then S.inFlight p c a.inst x.worker else []) = [] := by
  have hworker := h.worker
  cases hx : x.worker with
  | running bytesPerIdx isTagged i =>
      rw [hx] at hworker
      obtain ⟨-, -, hne⟩ := inv.reading_spec (Nat.le_refl 2) hhost
      exact if_neg fun heq => hne _ hworker heq.symm
  | idle | disabling | signalling => exact ite_self _

/-- The buffer that the host reads holds whole traces. -/
theorem Refines.buffers_reading (h : S.Refines p c iter host x a) {r : Nat}
    (inv : a.Inv (S.execs p).length psumDims.num r) (hhost : a.host = .reading x.unit.psum.readIdx) :
    S.BufferSums x.unit.base x.unit.psum x.unit.psum.readIdx
      ((a.buffers x.unit.psum.readIdx).flatMap (S.traceIrs p c)) := by
  have hsums := h.buffers _ h.bounded.readIdx
  rwa [h.inFlight_reading inv hhost, List.append_nil] at hsums

/-- The clear after a read. -/
theorem Refines.clear (h : S.Refines p c iter host x a) (hv : S.Valid) (hp : p ∈ Topology.axdimm.packIdentifiers)
    {r : Nat} (inv : a.Inv (S.execs p).length psumDims.num r) {tmp : Mem} (hclear : host = .clear tmp) :
    S.Refines p c iter (.writeResult tmp) { x with unit := handlePsumBufRead x.unit }
      { a with
          iter := a.iter + 1
          host := .wait
          outputs := a.outputs ++ [(x.unit.psum.readIdx, a.buffers x.unit.psum.readIdx)]
          buffers := Function.update a.buffers x.unit.psum.readIdx [] } := by
  subst hclear
  have hiter : a.iter = iter := h.iter_eq
  have hhost : a.host = .reading x.unit.psum.readIdx := h.host_eq
  have hbuf := h.buffers_reading inv hhost
  have hclear : S.BufferSums x.unit.base (x.unit.psum.clearBufCommon psumDims x.unit.psum.readIdx 0)
      x.unit.psum.readIdx [] := (hv.clearable hp hbuf).clear h.bounded.readIdx h.bounded
  have hidx : (x.unit.psum.clearBufCommon psumDims x.unit.psum.readIdx 0).readIdx = x.unit.psum.readIdx ∧
      (x.unit.psum.clearBufCommon psumDims x.unit.psum.readIdx 0).writeIdx = x.unit.psum.writeIdx := by
    unfold OutputBuffers.clearBufCommon
    split <;> exact ⟨rfl, rfl⟩
  refine ⟨?_, ?_, h.execReg, h.pollReg, ?_, ?_, h.inst, h.bounded.clear _, h.word, ?_⟩
  · show (a.iter + 1, HostStage.wait) = (iter + 1, .wait)
    rw [hiter]
  · refine h.worker.trans ?_
    show _ = x.worker.abs (x.unit.psum.clearBufCommon psumDims x.unit.psum.readIdx 0).writeIdx
    rw [hidx.2]
  · exact h.readIdx.trans hidx.1.symm
  · exact h.writeIdx.trans hidx.2.symm
  · intro b hb
    show S.BufferSums x.unit.base (x.unit.psum.clearBufCommon psumDims x.unit.psum.readIdx 0) b
      ((Function.update a.buffers x.unit.psum.readIdx [] b).flatMap (S.traceIrs p c) ++
        if b = (x.unit.psum.clearBufCommon psumDims x.unit.psum.readIdx 0).writeIdx then
          S.inFlight p c a.inst x.worker else [])
    rw [hidx.2]
    by_cases hread : b = x.unit.psum.readIdx
    · subst hread
      rw [Function.update_self, h.inFlight_reading inv hhost]
      exact hclear
    · rw [Function.update_of_ne hread]
      exact Sums.clear_other (h.buffers b hb) h.bounded h.bounded.readIdx hread

/-- **A step of the host is a step of the pipeline or none.** -/
theorem HostStep.refines (h : S.HostStep p c iter host x psum iter' host' x' psum') (hv : S.Valid)
    (hp : p ∈ Topology.axdimm.packIdentifiers) (henable : host ≠ .enable) {r : Nat}
    (inv : a.Inv (S.execs p).length psumDims.num r) (href : S.Refines p c iter host x a) :
    ∃ a', (a' = a ∨ PipeState.Step (S.execs p).length psumDims.num a a') ∧ S.Refines p c iter' host' x' a' := by
  have hiter := href.iter_eq
  have hhost := href.host_eq
  have hquiet : PipeState.overlaps a.host = false → x.worker = .idle := fun hov =>
    href.idle (inv.sync.quiet_of_not_overlaps hov).worker
  cases h with
  | enable => exact absurd rfl henable
  | wait hpoll =>
      refine ⟨_, .inr (.wait hhost (href.pollReg.trans hpoll)), ?_⟩
      refine href.move ?_ rfl rfl rfl rfl rfl href.execReg href.pollReg
      show (a.iter, if a.iter ≤ (S.execs p).length then HostStage.writeTrace else .finished) = _
      rw [show a.iter = iter from hiter]
      split <;> rfl
  | writeTrace =>
      exact ⟨_, .inr (.writeTrace hhost), href.writeTrace (hquiet (by rw [hhost]; rfl))⟩
  | shiftBuffers =>
      exact ⟨_, .inr (.shiftBuffers hhost), href.shiftBuffers (hquiet (by rw [hhost]; rfl))⟩
  | resetPoll =>
      refine ⟨_, .inr (.resetPoll hhost), href.move ?_ rfl rfl rfl rfl rfl href.execReg rfl⟩
      show (a.iter, HostStage.setEnable) = (iter, .setEnable)
      rw [show a.iter = iter from hiter]
  | firstEnable => exact ⟨_, .inr (.firstEnable hhost hiter), href.move rfl rfl rfl rfl rfl rfl rfl href.pollReg⟩
  | setEnable hi =>
      have hne : a.iter ≠ 0 := by rw [show a.iter = iter from hiter]; exact hi
      refine ⟨_, .inr (.setEnable hhost hne), href.move ?_ rfl rfl rfl rfl rfl rfl href.pollReg⟩
      show (a.iter, HostStage.read) = (iter, .read)
      rw [show a.iter = iter from hiter]
  | read he =>
      refine ⟨_, .inr (.read hhost), href.move ?_ rfl rfl rfl rfl rfl href.execReg href.pollReg⟩
      show (a.iter, HostStage.reading a.readIdx) = (iter, .reading x.unit.psum.readIdx)
      rw [show a.iter = iter from hiter, href.readIdx]
  | clear => exact ⟨_, .inr (.clear hhost), href.clear hv hp inv rfl⟩
  | writeResult he => exact ⟨a, .inl rfl, href.move href.host rfl rfl rfl rfl rfl href.execReg href.pollReg⟩

/-! ## The worker -/

theorem Valid.traceCount_lt (hv : S.Valid) (hp : p ∈ Topology.axdimm.packIdentifiers) (t : Nat) :
    S.traceCount p c t < Topology.axdimm.instPerSingleBuf := by
  cases he : (S.execs p)[t]? with
  | none =>
      rw [(traceWords_none (c := c) he).2.2.2]
      decide
  | some e =>
      rw [(traceWords_some (c := c) he).2.2.2]
      exact hv.length_execIr hp (List.mem_of_getElem? he)

theorem Valid.traceCount_pos (hv : S.Valid) (hp : p ∈ Topology.axdimm.packIdentifiers) (t : Nat) :
    0 < S.traceCount p c t := by
  cases he : (S.execs p)[t]? with
  | none =>
      rw [(traceWords_none (c := c) he).2.2.2]
      exact Nat.one_pos
  | some e =>
      rw [(traceWords_some (c := c) he).2.2.2]
      exact List.length_pos_iff.mpr (hv.execIr_ne_nil hp (List.mem_of_getElem? he))

/-- All rows of a trace have been added once its last word is executed. -/
theorem take_traceCount (p c t : Nat) : (S.traceIrs p c t).take (S.traceCount p c t) = S.traceIrs p c t := by
  refine List.take_of_length_le ?_
  cases he : (S.execs p)[t]? with
  | none =>
      rw [(traceWords_none (c := c) he).2.1]
      exact Nat.zero_le _
  | some e =>
      obtain ⟨-, hirs, -, hcount⟩ := traceWords_some (c := c) he
      rw [hirs, hcount]

/-- A started execution has its trace in the block. -/
theorem Refines.exists_trace (h : S.Refines p c iter host x a) {r : Nat} (inv : a.Inv (S.execs p).length psumDims.num r)
    (hexec : x.execReg = true) : ∃ t, a.inst = some t := by
  have hreg : a.execReg = true := h.execReg.trans hexec
  cases inv.sync with
  | quiet hq => exact absurd (hq.execReg.symm.trans hreg) nofun
  | pending _ hb | running _ hb | disabling _ hb | signalling _ hb => exact inv.exists_trace hb.overlaps

/-- The worker starts on the trace in the block. -/
theorem Refines.observe (h : S.Refines p c iter host x a) (hv : S.Valid) (hp : p ∈ Topology.axdimm.packIdentifiers)
    {r : Nat} (inv : a.Inv (S.execs p).length psumDims.num r) (hw : x.worker = .idle) (hexec : x.execReg = true) :
    S.Refines p c iter host
      { x with worker := .running (headerBytes (x.unit.inst.readLE 0 8)) (headerTagged (x.unit.inst.readLE 0 8)) 1 }
      { a with worker := .running a.writeIdx } := by
  obtain ⟨t, ht⟩ := h.exists_trace inv hexec
  obtain ⟨hbytes, htagged⟩ := hv.header hp (h.inst t ht)
  refine ⟨h.host, ?_, h.execReg, h.pollReg, h.readIdx, h.writeIdx, h.inst, h.bounded, ?_, ?_⟩
  · show WorkerStage.running a.writeIdx = .running x.unit.psum.writeIdx
    rw [h.writeIdx]
  · intro _ _ _ hrun
    cases hrun
    exact ⟨t, ht, hbytes, htagged, Nat.le_refl 1, hv.traceCount_pos hp t⟩
  · intro b hb
    have hnil : S.inFlight p c a.inst (.running (headerBytes (x.unit.inst.readLE 0 8))
        (headerTagged (x.unit.inst.readLE 0 8)) 1) = [] := by
      rw [ht]
      exact List.take_zero (l := S.traceIrs p c t)
    show S.BufferSums x.unit.base x.unit.psum b
      (_ ++ if b = x.unit.psum.writeIdx then S.inFlight p c a.inst (.running _ _ 1) else [])
    rw [hnil, ite_self, List.append_nil]
    exact h.buffers_idle hw hb

/-- The sums after one more word of trace `t`. -/
theorem Refines.exec_word (h : S.Refines p c iter host x a) (hv : S.Valid) (hp : p ∈ Topology.axdimm.packIdentifiers)
    (hc : InPack c p) {bytesPerIdx i : Nat} {isTagged : Bool} (hw : x.worker = .running bytesPerIdx isTagged i) :
    ∃ t o, a.inst = some t ∧ 1 ≤ i ∧ i ≤ S.traceCount p c t ∧ bytesPerIdx = S.traceBytes p t ∧ isTagged = false ∧
      execInstr S.addF32 bytesPerIdx isTagged (decodeInstruction (x.unit.inst.readLE (8 * i) 8)) x.unit
        = .ok { x.unit with psum := o } ∧
      o.readIdx = x.unit.psum.readIdx ∧ o.writeIdx = x.unit.psum.writeIdx ∧ o.Bounded psumDims ∧
      ((decodeInstruction (x.unit.inst.readLE (8 * i) 8)).traceEnd ≠ 0 ↔ i = S.traceCount p c t) ∧
      ∀ b < psumDims.num, S.BufferSums x.unit.base o b ((a.buffers b).flatMap (S.traceIrs p c) ++
        if b = x.unit.psum.writeIdx then (S.traceIrs p c t).take i else []) := by
  obtain ⟨t, ht, hbytes, htagged, h1, hle⟩ := h.word _ _ _ hw
  obtain ⟨k, rfl⟩ : ∃ k, i = k + 1 := ⟨i - 1, by omega⟩
  obtain ⟨o, hexec, hread, hwrite, hbounded, hother, hself, hend⟩ := hv.exec_word hp hc (h.inst t ht) h.bounded hle
  refine ⟨t, o, ht, h1, hle, hbytes, htagged, ?_, hread, hwrite, hbounded, hend, ?_⟩
  · rw [hbytes, htagged]
    exact hexec
  · intro b hb
    have hsums := h.buffers b hb
    rw [hw, ht] at hsums
    by_cases hbw : b = x.unit.psum.writeIdx
    · subst hbw
      rw [if_pos rfl] at hsums
      rw [if_pos rfl, List.take_add_one, ← List.append_assoc]
      exact hself _ hsums
    · rw [if_neg hbw] at hsums ⊢
      exact hother b _ hbw hsums

/-- A worker that is not executing has nothing in flight. -/
theorem Refines.buffers_settled (h : S.Refines p c iter host x a) (hw : x.worker = .disabling ∨ x.worker = .signalling)
    {b : Nat} (hb : b < psumDims.num) :
    S.BufferSums x.unit.base x.unit.psum b ((a.buffers b).flatMap (S.traceIrs p c) ++
      if b = x.unit.psum.writeIdx then [] else []) := by
  have hsums := h.buffers b hb
  rcases hw with hw | hw
  · rw [hw] at hsums
    exact hsums
  · rw [hw] at hsums
    exact hsums

/-- **A step of the worker is a step of the pipeline or none**, and it does not touch the tables. -/
theorem WorkerStep.refines (h : S.WorkerStep x x') (hv : S.Valid) (hp : p ∈ Topology.axdimm.packIdentifiers)
    (hc : InPack c p) {r : Nat} (inv : a.Inv (S.execs p).length psumDims.num r)
    (href : S.Refines p c iter host x a) :
    (∃ a', (a' = a ∨ PipeState.Step (S.execs p).length psumDims.num a a') ∧ S.Refines p c iter host x' a') ∧
      x'.unit.base = x.unit.base := by
  have hworker := href.worker
  cases h with
  | observe hw hexec =>
      rw [hw] at hworker
      exact ⟨⟨_, .inr (.observe hworker (href.execReg.trans hexec)), href.observe hv hp inv hw hexec⟩, rfl⟩
  | word hw hi hexec hend =>
      obtain ⟨t, o, ht, h1, hle, hbytes, htagged, hexec', hread, hwrite, hbounded, hlast, hsums⟩ :=
        href.exec_word hv hp hc hw
      obtain rfl := Except.ok.inj (hexec.symm.trans hexec')
      have hne : _ ≠ S.traceCount p c t := fun heq => (hlast.mpr heq) hend
      refine ⟨⟨a, .inl rfl, ?_, ?_, href.execReg, href.pollReg, ?_, ?_, href.inst, hbounded, ?_, ?_⟩, rfl⟩
      · rw [href.host]
        show _ = host.abs o.readIdx iter
        rw [hread]
      · rw [hworker, hw]
        show WorkerStage.running _ = .running o.writeIdx
        rw [hwrite]
      · exact href.readIdx.trans hread.symm
      · exact href.writeIdx.trans hwrite.symm
      · intro _ _ _ hrun
        cases hrun
        exact ⟨t, ht, hbytes, htagged, by omega, by omega⟩
      · intro b hb
        have := hsums b hb
        rw [← hwrite] at this
        show S.BufferSums x.unit.base o b (_ ++ if b = o.writeIdx then S.inFlight p c a.inst _ else [])
        rw [ht]
        exact this
  | lastWord hw hi hexec hend =>
      obtain ⟨t, o, ht, h1, hle, hbytes, htagged, hexec', hread, hwrite, hbounded, hlast, hsums⟩ :=
        href.exec_word hv hp hc hw
      obtain rfl := Except.ok.inj (hexec.symm.trans hexec')
      have hcount := hlast.mp hend
      rw [hw] at hworker
      refine ⟨⟨_, .inr (.execute hworker ht), ?_, rfl, href.execReg, href.pollReg, ?_, ?_, href.inst, hbounded, ?_, ?_⟩,
        rfl⟩
      · refine href.host.trans ?_
        show _ = host.abs o.readIdx iter
        rw [hread]
      · exact href.readIdx.trans hread.symm
      · exact href.writeIdx.trans hwrite.symm
      · intro _ _ _ hrun
        cases hrun
      · intro b hb
        have := hsums b hb
        rw [hcount, take_traceCount] at this
        show S.BufferSums x.unit.base o b ((Function.update a.buffers x.unit.psum.writeIdx
          (a.buffers x.unit.psum.writeIdx ++ [t]) b).flatMap (S.traceIrs p c) ++ if b = o.writeIdx then [] else [])
        rw [ite_self, List.append_nil]
        by_cases hbw : b = x.unit.psum.writeIdx
        · subst hbw
          rw [if_pos rfl] at this
          rw [Function.update_self, List.flatMap_append, List.flatMap_singleton]
          exact this
        · rw [if_neg hbw, List.append_nil] at this
          rw [Function.update_of_ne hbw]
          exact this
  | blockEnd hw hi =>
      obtain ⟨t, -, -, -, -, hle⟩ := href.word _ _ _ hw
      have := hv.traceCount_lt (c := c) hp t
      omega
  | disable hw =>
      rw [hw] at hworker
      refine ⟨⟨_, .inr (.disable hworker), href.host, rfl, rfl, href.pollReg, href.readIdx, href.writeIdx, href.inst,
        href.bounded, ?_, fun b hb => href.buffers_settled (.inl hw) hb⟩, rfl⟩
      intro _ _ _ hrun
      cases hrun
  | signal hw =>
      rw [hw] at hworker
      refine ⟨⟨_, .inr (.signal hworker), href.host, rfl, href.execReg, rfl, href.readIdx, href.writeIdx, href.inst,
        href.bounded, ?_, fun b hb => href.buffers_settled (.inr hw) hb⟩, rfl⟩
      intro _ _ _ hrun
      cases hrun

end AxdimmSetup

end Pnm.Sls

import Pnm.Lib.Runs
import Pnm.Sls.OutputBuffers

/-!
# `Sls.AxdimmPipeline` — double buffering between the runner and the simulator's worker

The model of `AxdimmReductionRunner::run_on_pack` and of `BaseSlsSimulator::worker_job` on one acquired unit,
as two processes that share the exec and poll registers, the instruction block and the rotating psum
buffers. Traces `0` to `numExecs - 1` belong to the executions of the pack, trace `numExecs` is the dummy.

Executing a trace and reading a buffer take time, so each of them is a pair of steps. A buffer is represented by
the traces that have been summed up in it since its last clear. The histories `executed` and `outputs` record
what the worker ran, and where, and what the host read.

The invariant ties the two processes together by counting: the host knows how many executions it has started
and how often it has rotated the buffers, and the worker is at most one execution behind.
-/

namespace Pnm.Sls

open Pnm.Lib

/-- Where the host is in one iteration: `wait_and_start` (or the first start, which does not wait), then
    `read_output_buffers` for the execution before. -/
inductive HostStage where
  | wait
  | writeTrace
  | shiftBuffers
  | resetPoll
  | setEnable
  | read
  | reading (buf : Nat)
  | finished
deriving DecidableEq, Repr

/-- Where the worker is in the body of its loop. -/
inductive WorkerStage where
  | idle
  | running (buf : Nat)
  | disabling
  | signalling
deriving DecidableEq, Repr

/-- Both processes, what they share, and what has happened. -/
structure PipeState where
  iter : Nat
  host : HostStage
  worker : WorkerStage
  execReg : Bool
  pollReg : Bool
  readIdx : Nat
  writeIdx : Nat
  inst : Option Nat
  buffers : Nat → List Nat
  executed : List (Nat × Nat)
  outputs : List (Nat × List Nat)

namespace PipeState

/-- A freshly acquired and cleared unit, with the buffers rotated in any way. The first execution is started
    without a wait; without executions the host would wait for a dummy execution that nobody has started. -/
def start (numExecs num readIdx : Nat) : PipeState where
  iter := 0
  host := if numExecs = 0 then .wait else .writeTrace
  worker := .idle
  execReg := false
  pollReg := false
  readIdx := readIdx
  writeIdx := OutputBuffers.shiftIndex num readIdx
  inst := none
  buffers := fun _ => []
  executed := []
  outputs := []

/-- One step of the host or of the worker. Polling a register that does not have the awaited value yet is not a
    step. -/
inductive Step (numExecs num : Nat) : PipeState → PipeState → Prop where
  | wait {s} (h : s.host = .wait) (hpoll : s.pollReg = true) :
      Step numExecs num s { s with host := if s.iter ≤ numExecs then .writeTrace else .finished }
  | writeTrace {s} (h : s.host = .writeTrace) :
      Step numExecs num s { s with host := .shiftBuffers, inst := some s.iter }
  | shiftBuffers {s} (h : s.host = .shiftBuffers) :
      Step numExecs num s
        { s with
            host := .resetPoll
            readIdx := OutputBuffers.shiftIndex num s.readIdx
            writeIdx := OutputBuffers.shiftIndex num s.writeIdx }
  | resetPoll {s} (h : s.host = .resetPoll) :
      Step numExecs num s { s with host := .setEnable, pollReg := false }
  | firstEnable {s} (h : s.host = .setEnable) (hi : s.iter = 0) :
      Step numExecs num s { s with iter := 1, host := .wait, execReg := true }
  | setEnable {s} (h : s.host = .setEnable) (hi : s.iter ≠ 0) :
      Step numExecs num s { s with host := .read, execReg := true }
  | read {s} (h : s.host = .read) :
      Step numExecs num s { s with host := .reading s.readIdx }
  | clear {s buf} (h : s.host = .reading buf) :
      Step numExecs num s
        { s with
            iter := s.iter + 1
            host := .wait
            outputs := s.outputs ++ [(buf, s.buffers buf)]
            buffers := Function.update s.buffers buf [] }
  | observe {s} (h : s.worker = .idle) (hexec : s.execReg = true) :
      Step numExecs num s { s with worker := .running s.writeIdx }
  | execute {s buf trace} (h : s.worker = .running buf) (hinst : s.inst = some trace) :
      Step numExecs num s
        { s with
            worker := .disabling
            executed := s.executed ++ [(trace, buf)]
            buffers := Function.update s.buffers buf (s.buffers buf ++ [trace]) }
  | disable {s} (h : s.worker = .disabling) :
      Step numExecs num s { s with worker := .signalling, execReg := false }
  | signal {s} (h : s.worker = .signalling) :
      Step numExecs num s { s with worker := .idle, pollReg := true }

/-! ## The invariant -/

/-- The host may be here while the worker is busy. -/
def overlaps : HostStage → Bool
  | .wait | .read | .reading _ => true
  | _                          => false

/-- Executions the host has started. -/
def started (s : PipeState) : Nat :=
  match s.host with
  | .read | .reading _ => s.iter + 1
  | _                  => s.iter

/-- How often the host has rotated the buffers. -/
def shifted (s : PipeState) : Nat :=
  match s.host with
  | .resetPoll | .setEnable | .read | .reading _ => s.iter + 1
  | _                                            => s.iter

/-- The buffer execution `i` is run into. -/
def bufOf (num readIdx i : Nat) : Nat := (readIdx + i + 2) % num

/-- The iterations in which a stage occurs. -/
def IterOk (numExecs : Nat) (s : PipeState) : Prop :=
  match s.host with
  | .wait                                                  => 1 ≤ s.iter ∧ s.iter ≤ numExecs + 1
  | .writeTrace | .shiftBuffers | .resetPoll | .setEnable => s.iter ≤ numExecs
  | .read | .reading _                                     => 1 ≤ s.iter ∧ s.iter ≤ numExecs
  | .finished                                              => s.iter = numExecs + 1

/-- The worker has run all started executions and is idle. -/
structure Quiet (s : PipeState) : Prop where
  worker : s.worker = .idle
  execReg : s.execReg = false
  count : s.executed.length = s.started
  pollReg : s.pollReg = false → s.iter = 0 ∨ s.host = .setEnable

/-- The worker is busy with the last started execution. `behind` says whether it still has to run it. -/
structure Busy (s : PipeState) (execReg : Bool) (behind : Nat) : Prop where
  execReg : s.execReg = execReg
  pollReg : s.pollReg = false
  count : s.executed.length + behind = s.started
  overlaps : overlaps s.host = true

/-- **Where the worker is**, as seen from the host. -/
inductive Sync (s : PipeState) : Prop where
  | quiet (h : s.Quiet)
  | pending (hw : s.worker = .idle) (h : s.Busy true 1)
  | running (hw : s.worker = .running s.writeIdx) (h : s.Busy true 1)
  | disabling (hw : s.worker = .disabling) (h : s.Busy true 0)
  | signalling (hw : s.worker = .signalling) (h : s.Busy false 0)

/-- The trace in the instruction block. -/
def InstOk (s : PipeState) : Prop :=
  match s.host with
  | .wait                                  => s.inst = some (s.iter - 1)
  | .writeTrace | .finished                => True
  | .shiftBuffers | .resetPoll | .setEnable => s.inst = some s.iter
  | .read | .reading _                     => s.inst = some s.iter

/-- The invariant. The executions not read back yet are `iter - 1` and later, and each is alone in its buffer. -/
structure Inv (numExecs num r : Nat) (s : PipeState) : Prop where
  iter : s.IterOk numExecs
  sync : s.Sync
  poll : s.host = .setEnable → s.pollReg = false
  readIdx : s.readIdx = (r + s.shifted) % num
  writeIdx : s.writeIdx = (r + 1 + s.shifted) % num
  inst : s.InstOk
  executed : s.executed = (List.range s.executed.length).map fun i => (i, bufOf num r i)
  outputs : s.outputs = (List.range (s.iter - 1)).map fun i => (bufOf num r i, [i])
  buffers : ∀ b, s.buffers b
    = (List.range' (s.iter - 1) (s.executed.length - (s.iter - 1))).filter (bufOf num r · == b)
  reading : ∀ b, s.host = .reading b → b = bufOf num r (s.iter - 1)

variable {numExecs num r : Nat} {s s' : PipeState}

theorem Sync.quiet_of_not_overlaps (h : s.Sync) (hov : overlaps s.host = false) : s.Quiet := by
  have hbusy : ∀ reg n, s.Busy reg n → s.Quiet := fun _ _ hb => absurd (hb.overlaps.symm.trans hov) nofun
  cases h with
  | quiet h => exact h
  | pending _ h | running _ h | disabling _ h | signalling _ h => exact hbusy _ _ h

/-- A step that leaves the worker alone. -/
theorem Sync.map (h : s.Sync) (hworker : s'.worker = s.worker) (hwrite : s'.writeIdx = s.writeIdx)
    (hquiet : s.Quiet → s'.Quiet) (hbusy : ∀ reg n, s.Busy reg n → s'.Busy reg n) : s'.Sync := by
  cases h with
  | quiet h => exact .quiet (hquiet h)
  | pending hw h => exact .pending (hworker.trans hw) (hbusy _ _ h)
  | running hw h => exact .running (by rw [hworker, hw, hwrite]) (hbusy _ _ h)
  | disabling hw h => exact .disabling (hworker.trans hw) (hbusy _ _ h)
  | signalling hw h => exact .signalling (hworker.trans hw) (hbusy _ _ h)

/-- Shifting an index that is `k` rotations on. -/
theorem shiftIndex_mod (a k : Nat) : OutputBuffers.shiftIndex num ((a + k) % num) = (a + (k + 1)) % num := by
  rw [OutputBuffers.shiftIndex, Nat.mod_add_mod, Nat.add_assoc]

/-- Executions that follow one another use different buffers. -/
theorem bufOf_succ_ne (hnum : 2 ≤ num) (i : Nat) : bufOf num r (i + 1) ≠ bufOf num r i := by
  unfold bufOf
  intro h
  have h1 := Nat.div_add_mod (r + (i + 1) + 2) num
  have h2 := Nat.div_add_mod (r + i + 2) num
  rw [h] at h1
  have h3 : num * ((r + (i + 1) + 2) / num) = num * ((r + i + 2) / num) + 1 := by omega
  have h4 : num ∣ 1 := (Nat.dvd_add_right (Nat.dvd_mul_right num _)).mp (h3 ▸ Nat.dvd_mul_right num _)
  have := Nat.le_of_dvd Nat.one_pos h4
  omega

theorem Inv.start (hexecs : 1 ≤ numExecs) (hr : r < num) : (start numExecs num r).Inv numExecs num r := by
  unfold PipeState.start
  rw [if_neg (by omega)]
  exact
    { iter := Nat.zero_le _
      sync := .quiet ⟨rfl, rfl, rfl, fun _ => Or.inl rfl⟩
      poll := nofun
      readIdx := (Nat.mod_eq_of_lt hr).symm
      writeIdx := rfl
      inst := trivial
      executed := rfl
      outputs := rfl
      buffers := fun _ => rfl
      reading := nofun }

/-! ## One step -/

/-- What a step of the host does when it only moves on, with the counters as they were. -/
theorem Inv.moveHost (inv : s.Inv numExecs num r) {host : HostStage}
    (hiter : ({ s with host := host } : PipeState).IterOk numExecs)
    (hstarted : ({ s with host := host } : PipeState).started = s.started)
    (hshifted : ({ s with host := host } : PipeState).shifted = s.shifted)
    (hov : overlaps s.host = true → overlaps host = true ∨ s.pollReg = true) (henable : host ≠ .setEnable)
    (hold : s.host ≠ .setEnable) (hinst : ({ s with host := host } : PipeState).InstOk)
    (hreading : ∀ b, host = .reading b → b = bufOf num r (s.iter - 1)) :
    ({ s with host := host } : PipeState).Inv numExecs num r := by
  have hquiet : s.Quiet → ({ s with host := host } : PipeState).Quiet := fun hq =>
    ⟨hq.worker, hq.execReg, hq.count.trans hstarted.symm, fun hp => Or.inl ((hq.pollReg hp).resolve_right hold)⟩
  have hbusy : ∀ reg n, s.Busy reg n → ({ s with host := host } : PipeState).Busy reg n := by
    intro reg n hb
    refine ⟨hb.execReg, hb.pollReg, hb.count.trans hstarted.symm, (hov hb.overlaps).resolve_right ?_⟩
    rw [hb.pollReg]
    nofun
  refine ⟨hiter, inv.sync.map rfl rfl hquiet hbusy, fun h => absurd h henable, ?_, ?_, hinst, inv.executed,
    inv.outputs, inv.buffers, hreading⟩
  · rw [hshifted]
    exact inv.readIdx
  · rw [hshifted]
    exact inv.writeIdx

theorem Inv.step_wait (inv : s.Inv numExecs num r) (h : s.host = .wait) (hpoll : s.pollReg = true) :
    ({ s with host := if s.iter ≤ numExecs then .writeTrace else .finished } : PipeState).Inv numExecs num r := by
  have hiter := inv.iter
  unfold IterOk at hiter
  rw [h] at hiter
  by_cases hle : s.iter ≤ numExecs
  · rw [if_pos hle]
    exact inv.moveHost hle (by simp [started, h]) (by simp [shifted, h]) (fun _ => Or.inr hpoll) nofun
      (by rw [h]; nofun)
      trivial nofun
  · rw [if_neg hle]
    exact inv.moveHost (show s.iter = numExecs + 1 by omega) (by simp [started, h]) (by simp [shifted, h])
      (fun _ => Or.inr hpoll) nofun (by rw [h]; nofun) trivial nofun

theorem Inv.step_read (inv : s.Inv numExecs num r) (h : s.host = .read) :
    ({ s with host := .reading s.readIdx } : PipeState).Inv numExecs num r := by
  have hiter := inv.iter
  have hinst := inv.inst
  unfold IterOk at hiter
  unfold InstOk at hinst
  rw [h] at hiter hinst
  refine inv.moveHost hiter (by simp [started, h]) (by simp [shifted, h]) (fun _ => Or.inl rfl) nofun
    (by rw [h]; nofun) hinst ?_
  rintro b ⟨⟩
  rw [inv.readIdx]
  simp only [shifted, h, bufOf]
  congr 1
  omega

/-- While the worker is idle, the host prepares the next execution. -/
theorem Inv.step_prepare (inv : s.Inv numExecs num r) {host : HostStage} {inst : Option Nat} {pollReg : Bool}
    {readIdx writeIdx : Nat}
    (hold : overlaps s.host = false) (hnew : overlaps host = false) (hfin : s.host ≠ .finished)
    (hiter : s.iter ≤ numExecs → ({ s with host := host } : PipeState).IterOk numExecs)
    (hpoll : pollReg = false → s.iter = 0 ∨ host = .setEnable) (henable : host = .setEnable → pollReg = false)
    (hread : readIdx = (r + ({ s with host := host } : PipeState).shifted) % num)
    (hwrite : writeIdx = (r + 1 + ({ s with host := host } : PipeState).shifted) % num)
    (hinst : ({ s with host := host, inst := inst } : PipeState).InstOk) :
    ({ s with host := host, inst := inst, pollReg := pollReg, readIdx := readIdx, writeIdx := writeIdx } :
      PipeState).Inv numExecs num r := by
  have hq := inv.sync.quiet_of_not_overlaps hold
  have hit := inv.iter
  have hle : s.iter ≤ numExecs := by
    unfold IterOk at hit
    cases hs : s.host with
    | writeTrace | shiftBuffers | resetPoll | setEnable =>
        rw [hs] at hit
        exact hit
    | wait | read | reading =>
        rw [hs] at hold
        exact absurd hold nofun
    | finished => exact absurd hs hfin
  have hstarted : ∀ x, overlaps x = false → ({ s with host := x } : PipeState).started = s.iter := by
    intro x hx
    cases x with
    | writeTrace | shiftBuffers | resetPoll | setEnable | finished => rfl
    | wait | read | reading => exact absurd hx nofun
  refine ⟨hiter hle, .quiet ⟨hq.worker, hq.execReg, ?_, hpoll⟩, henable, hread, hwrite, hinst, inv.executed,
    inv.outputs, inv.buffers, ?_⟩
  · have h1 := hstarted host hnew
    have h2 := hstarted s.host hold
    exact hq.count.trans (h2.trans h1.symm)
  · intro b hb
    rw [show host = .reading b from hb] at hnew
    exact absurd hnew nofun

/-- The host sets exec enable: the worker has one execution to run. -/
theorem Inv.step_enable (inv : s.Inv numExecs num r) (h : s.host = .setEnable) {iter : Nat} {host : HostStage}
    (hnext : s.iter = 0 ∧ iter = 1 ∧ host = .wait ∨ s.iter ≠ 0 ∧ iter = s.iter ∧ host = .read) :
    ({ s with iter := iter, host := host, execReg := true } : PipeState).Inv numExecs num r := by
  have hq := inv.sync.quiet_of_not_overlaps (by rw [h]; rfl)
  have hiter := inv.iter
  have hcount := hq.count
  have hread := inv.readIdx
  have hwrite := inv.writeIdx
  have hinst := inv.inst
  unfold IterOk at hiter
  unfold InstOk at hinst
  simp only [started, shifted, h] at hiter hcount hread hwrite hinst
  rcases hnext with ⟨h0, rfl, rfl⟩ | ⟨h0, rfl, rfl⟩
  · refine ⟨⟨Nat.le_refl 1, Nat.le_add_left 1 numExecs⟩, .pending hq.worker ⟨rfl, inv.poll h, ?_, rfl⟩, nofun, ?_, ?_,
      ?_, inv.executed,
      ?_, ?_, nofun⟩
    · simp only [started]
      omega
    · rw [hread, h0]
      rfl
    · rw [hwrite, h0]
      rfl
    · rw [h0] at hinst
      exact hinst
    · rw [inv.outputs, h0]
      rfl
    · intro b
      rw [inv.buffers b, h0]
      rfl
  · refine ⟨⟨Nat.one_le_iff_ne_zero.mpr h0, hiter⟩, .pending hq.worker ⟨rfl, inv.poll h, ?_, rfl⟩, nofun, hread, hwrite,
      hinst, inv.executed,
      inv.outputs, inv.buffers, nofun⟩
    simp only [started]
    omega

/-- The worker is at most one execution behind. -/
theorem Sync.count_bounds (h : s.Sync) : s.executed.length ≤ s.started ∧ s.started ≤ s.executed.length + 1 := by
  cases h with
  | quiet h =>
      have := h.count
      omega
  | pending _ h | running _ h | disabling _ h | signalling _ h =>
      have := h.count
      omega

/-- **What the host reads.** The oldest execution that has not been read back is alone in its buffer, and after
    the clear the remaining ones are as before. -/
theorem outstanding_buffers (hnum : 2 ≤ num) {k c : Nat} (hlo : k + 1 ≤ c) (hhi : c ≤ k + 2) :
    (List.range' k (c - k)).filter (bufOf num r · == bufOf num r k) = [k] ∧
      ∀ b, (List.range' (k + 1) (c - (k + 1))).filter (bufOf num r · == b)
        = if b = bufOf num r k then [] else (List.range' k (c - k)).filter (bufOf num r · == b) := by
  have hne : (bufOf num r (k + 1) == bufOf num r k) = false := beq_false_of_ne (bufOf_succ_ne hnum k)
  obtain ⟨m, hm⟩ : ∃ m, c - (k + 1) = m := ⟨_, rfl⟩
  rw [hm, show c - k = m + 1 by omega, List.range'_succ, List.filter_cons]
  have hrest : (List.range' (k + 1) m).filter (bufOf num r · == bufOf num r k) = [] := by
    rcases (show m = 0 ∨ m = 1 by omega) with rfl | rfl
    · rfl
    · simp [hne]
  refine ⟨?_, ?_⟩
  · rw [if_pos (by simp), hrest]
  · intro b
    by_cases hb : b = bufOf num r k
    · rw [if_pos hb, hb, hrest]
    · rw [if_neg hb, List.filter_cons, if_neg]
      simpa using fun h => hb h.symm

theorem Inv.step_clear (hnum : 2 ≤ num) (inv : s.Inv numExecs num r) {buf : Nat} (h : s.host = .reading buf) :
    ({ s with iter := s.iter + 1, host := .wait, outputs := s.outputs ++ [(buf, s.buffers buf)]
              buffers := Function.update s.buffers buf [] } : PipeState).Inv numExecs num r := by
  have hiter := inv.iter
  have hread := inv.readIdx
  have hwrite := inv.writeIdx
  have hinst := inv.inst
  have hstarted : s.started = s.iter + 1 := by simp [started, h]
  have hcount := inv.sync.count_bounds
  unfold IterOk at hiter
  unfold InstOk at hinst
  simp only [shifted, h] at hiter hread hwrite hinst
  obtain ⟨k, hk⟩ : ∃ k, s.iter = k + 1 := ⟨s.iter - 1, by omega⟩
  have hbuf : buf = bufOf num r k := by
    rw [inv.reading buf h, hk]
    rfl
  obtain ⟨hself, hrest⟩ := outstanding_buffers (r := r) hnum (show k + 1 ≤ s.executed.length by omega)
    (show s.executed.length ≤ k + 2 by omega)
  have hbuffers := inv.buffers
  have houtputs := inv.outputs
  rw [hk, Nat.add_sub_cancel] at houtputs
  simp only [hk, Nat.add_sub_cancel] at hbuffers
  refine ⟨⟨Nat.le_add_left 1 s.iter, Nat.succ_le_succ hiter.2⟩, ?_, nofun, hread, hwrite, ?_, inv.executed, ?_, ?_,
    nofun⟩
  · refine inv.sync.map rfl rfl ?_ ?_
    · intro hq
      refine ⟨hq.worker, hq.execReg, hq.count.trans hstarted, fun hp => ?_⟩
      rcases hq.pollReg hp with h0 | h0
      · omega
      · rw [h] at h0
        cases h0
    · intro reg n hb
      exact ⟨hb.execReg, hb.pollReg, hb.count.trans hstarted, rfl⟩
  · exact hinst
  · show s.outputs ++ [(buf, s.buffers buf)] = (List.range (s.iter + 1 - 1)).map _
    rw [Nat.add_sub_cancel, hk, List.range_succ, List.map_append, houtputs, hbuffers, hbuf, hself]
    rfl
  · intro b
    show Function.update s.buffers buf [] b = _
    simp only [Nat.add_sub_cancel, hk, hrest b, Function.update_apply, hbuf, hbuffers]

/-! The worker's steps. -/

theorem Inv.step_observe (inv : s.Inv numExecs num r) (h : s.worker = .idle) (hexec : s.execReg = true) :
    ({ s with worker := .running s.writeIdx } : PipeState).Inv numExecs num r := by
  refine ⟨inv.iter, ?_, inv.poll, inv.readIdx, inv.writeIdx, inv.inst, inv.executed, inv.outputs, inv.buffers,
    inv.reading⟩
  cases inv.sync with
  | quiet hq => exact absurd (hq.execReg.symm.trans hexec) nofun
  | pending _ hb => exact .running rfl ⟨hb.execReg, hb.pollReg, hb.count, hb.overlaps⟩
  | running hw | disabling hw | signalling hw =>
      rw [h] at hw
      cases hw

/-- The running execution and its buffer, as seen by counting. -/
theorem Inv.running_spec (inv : s.Inv numExecs num r) {buf trace : Nat} (h : s.worker = .running buf)
    (hinst : s.inst = some trace) :
    s.Busy true 1 ∧ trace = s.executed.length ∧ buf = bufOf num r s.executed.length := by
  cases inv.sync with
  | quiet hq =>
      rw [hq.worker] at h
      cases h
  | pending hw | disabling hw | signalling hw =>
      rw [hw] at h
      cases h
  | running hw hb =>
      have hcount := hb.count
      have hok := inv.inst
      have hwrite := inv.writeIdx
      have hov := hb.overlaps
      have hiter := inv.iter
      rw [hw] at h
      unfold InstOk at hok
      unfold IterOk at hiter
      -- in the stages that overlap, the trace and the rotation belong to the last started execution
      have hlast : trace + 1 = s.started ∧ s.shifted = s.started := by
        cases hs : s.host with
        | wait =>
            rw [hs] at hok hiter
            have := Option.some.inj (hinst.symm.trans hok)
            simp only [started, shifted, hs, and_true]
            omega
        | read | reading =>
            rw [hs] at hok
            have := Option.some.inj (hinst.symm.trans hok)
            simp only [started, shifted, hs, and_true]
            omega
        | writeTrace | shiftBuffers | resetPoll | setEnable | finished =>
            rw [hs] at hov
            cases hov
      refine ⟨hb, by omega, ?_⟩
      rw [← WorkerStage.running.inj h, hwrite, bufOf]
      congr 1
      omega

theorem Inv.step_execute (inv : s.Inv numExecs num r) {buf trace : Nat} (h : s.worker = .running buf)
    (hinst : s.inst = some trace) :
    ({ s with worker := .disabling, executed := s.executed ++ [(trace, buf)]
              buffers := Function.update s.buffers buf (s.buffers buf ++ [trace]) } :
      PipeState).Inv numExecs num r := by
  obtain ⟨hb, rfl, rfl⟩ := inv.running_spec h hinst
  have hcount := hb.count
  have hle : s.iter - 1 ≤ s.executed.length := by
    have : s.iter ≤ s.started := by
      unfold started
      split <;> omega
    omega
  refine ⟨inv.iter, .disabling rfl ⟨hb.execReg, hb.pollReg, ?_, hb.overlaps⟩, inv.poll, inv.readIdx, inv.writeIdx,
    inv.inst, ?_, inv.outputs, ?_, inv.reading⟩
  · show (s.executed ++ [_]).length + 0 = s.started
    rw [List.length_append, ← hcount]
    rfl
  · rw [List.length_append, List.length_singleton, List.range_succ, List.map_append, ← inv.executed]
    rfl
  · intro b
    have hrange : s.executed.length + 1 - (s.iter - 1) = (s.executed.length - (s.iter - 1)) + 1 := by omega
    simp only [List.length_append, List.length_singleton]
    rw [hrange, List.range'_1_concat, List.filter_append, ← inv.buffers b,
      show s.iter - 1 + (s.executed.length - (s.iter - 1)) = s.executed.length by omega, Function.update_apply]
    split
    · rename_i hbuf
      subst hbuf
      simp
    · rename_i hbuf
      simp [Ne.symm hbuf]

theorem Inv.step_disable (inv : s.Inv numExecs num r) (h : s.worker = .disabling) :
    ({ s with worker := .signalling, execReg := false } : PipeState).Inv numExecs num r := by
  refine ⟨inv.iter, ?_, inv.poll, inv.readIdx, inv.writeIdx, inv.inst, inv.executed, inv.outputs, inv.buffers,
    inv.reading⟩
  cases inv.sync with
  | quiet hq =>
      rw [hq.worker] at h
      cases h
  | pending hw | running hw | signalling hw =>
      rw [hw] at h
      cases h
  | disabling _ hb => exact .signalling rfl ⟨rfl, hb.pollReg, hb.count, hb.overlaps⟩

theorem Inv.step_signal (inv : s.Inv numExecs num r) (h : s.worker = .signalling) :
    ({ s with worker := .idle, pollReg := true } : PipeState).Inv numExecs num r := by
  cases inv.sync with
  | quiet hq =>
      rw [hq.worker] at h
      cases h
  | pending hw | running hw | disabling hw =>
      rw [hw] at h
      cases h
  | signalling _ hb =>
      refine ⟨inv.iter, .quiet ⟨rfl, hb.execReg, hb.count, nofun⟩, ?_, inv.readIdx, inv.writeIdx, inv.inst,
        inv.executed, inv.outputs, inv.buffers, inv.reading⟩
      intro henable
      have hov := hb.overlaps
      rw [show s.host = .setEnable from henable] at hov
      cases hov

/-- **Step lemma.** -/
theorem Inv.step (hnum : 2 ≤ num) (inv : s.Inv numExecs num r) (hstep : Step numExecs num s s') :
    s'.Inv numExecs num r := by
  have hread := inv.readIdx
  have hwrite := inv.writeIdx
  have hinst := inv.inst
  cases hstep with
  | wait h hpoll => exact inv.step_wait h hpoll
  | writeTrace h =>
      simp only [shifted, h] at hread hwrite
      have hq := inv.sync.quiet_of_not_overlaps (by rw [h]; rfl)
      exact inv.step_prepare (by rw [h]; rfl) rfl (by rw [h]; nofun) id
        (fun hp => Or.inl ((hq.pollReg hp).resolve_right (by rw [h]; nofun))) nofun hread hwrite rfl
  | shiftBuffers h =>
      unfold InstOk at hinst
      simp only [shifted, h] at hread hwrite hinst
      have hq := inv.sync.quiet_of_not_overlaps (by rw [h]; rfl)
      refine inv.step_prepare (by rw [h]; rfl) rfl (by rw [h]; nofun) id
        (fun hp => Or.inl ((hq.pollReg hp).resolve_right (by rw [h]; nofun))) nofun ?_ ?_ hinst
      · rw [hread]
        exact shiftIndex_mod r s.iter
      · rw [hwrite]
        exact shiftIndex_mod (r + 1) s.iter
  | resetPoll h =>
      unfold InstOk at hinst
      simp only [shifted, h] at hread hwrite hinst
      exact inv.step_prepare (by rw [h]; rfl) rfl (by rw [h]; nofun) id (fun _ => Or.inr rfl) (fun _ => rfl) hread
        hwrite
        hinst
  | firstEnable h hi => exact inv.step_enable h (Or.inl ⟨hi, rfl, rfl⟩)
  | setEnable h hi => exact inv.step_enable h (Or.inr ⟨hi, rfl, rfl⟩)
  | read h => exact inv.step_read h
  | clear h => exact inv.step_clear hnum h
  | observe h hexec => exact inv.step_observe h hexec
  | execute h hinst => exact inv.step_execute h hinst
  | disable h => exact inv.step_disable h
  | signal h => exact inv.step_signal h

/-! ## Progress and termination -/

/-- In the stages that overlap with the worker there is a trace to run. -/
theorem Inv.exists_trace (inv : s.Inv numExecs num r) (hov : overlaps s.host = true) :
    ∃ trace, s.inst = some trace := by
  have hok := inv.inst
  unfold InstOk at hok
  cases hs : s.host with
  | wait | read | reading =>
      rw [hs] at hok
      exact ⟨_, hok⟩
  | writeTrace | shiftBuffers | resetPoll | setEnable | finished =>
      rw [hs] at hov
      cases hov

/-- **No deadlock**: without a next step the host has finished and the worker is idle. -/
theorem Inv.finished_of_stuck (inv : s.Inv numExecs num r) (hstuck : Stuck (Step numExecs num) s) :
    s.host = .finished ∧ s.Quiet := by
  have hno : ∀ {s'}, Step numExecs num s s' → False := fun {s'} h => hstuck s' h
  cases inv.sync with
  | pending hw hb => exact (hno (.observe hw hb.execReg)).elim
  | running hw hb =>
      obtain ⟨trace, htrace⟩ := inv.exists_trace hb.overlaps
      exact (hno (.execute hw htrace)).elim
  | disabling hw => exact (hno (.disable hw)).elim
  | signalling hw => exact (hno (.signal hw)).elim
  | quiet hq =>
      refine ⟨?_, hq⟩
      cases hs : s.host with
      | wait =>
          have hiter := inv.iter
          unfold IterOk at hiter
          rw [hs] at hiter
          cases hpoll : s.pollReg with
          | true => exact (hno (.wait hs hpoll)).elim
          | false =>
              rcases hq.pollReg hpoll with h0 | h0
              · omega
              · rw [hs] at h0
                cases h0
      | writeTrace => exact (hno (.writeTrace hs)).elim
      | shiftBuffers => exact (hno (.shiftBuffers hs)).elim
      | resetPoll => exact (hno (.resetPoll hs)).elim
      | setEnable =>
          by_cases h0 : s.iter = 0
          · exact (hno (.firstEnable hs h0)).elim
          · exact (hno (.setEnable hs h0)).elim
      | read => exact (hno (.read hs)).elim
      | reading buf => exact (hno (.clear hs)).elim
      | finished => rfl

/-- Steps left in an iteration of the host. -/
def hostRank : HostStage → Nat
  | .wait         => 7
  | .writeTrace   => 6
  | .shiftBuffers => 5
  | .resetPoll    => 4
  | .setEnable    => 3
  | .read         => 2
  | .reading _    => 1
  | .finished     => 0

/-- Steps of the worker since it was last idle, less four for an execution that is already counted. -/
def workerRank : WorkerStage → Nat
  | .idle       => 4
  | .running _  => 3
  | .disabling  => 6
  | .signalling => 5

/-- A bound on the steps left. -/
def left (numExecs : Nat) (s : PipeState) : Nat :=
  8 * (numExecs + 1 - s.iter) + hostRank s.host + (4 * (numExecs + 1 - s.executed.length) + workerRank s.worker)

theorem Inv.started_le (inv : s.Inv numExecs num r) : s.started ≤ numExecs + 1 := by
  have hiter := inv.iter
  unfold IterOk at hiter
  cases hs : s.host with
  | wait | writeTrace | shiftBuffers | resetPoll | setEnable | finished | read | reading =>
      rw [hs] at hiter
      simp only [started, hs]
      omega

theorem Inv.left_lt (inv : s.Inv numExecs num r) (hstep : Step numExecs num s s') :
    s'.left numExecs < s.left numExecs := by
  have hiter := inv.iter
  unfold IterOk at hiter
  cases hstep with
  | wait h hpoll =>
      by_cases hle : s.iter ≤ numExecs
      · simp [left, h, hle, hostRank]
      · simp [left, h, hle, hostRank]
  | writeTrace h | shiftBuffers h | resetPoll h | setEnable h | read h => simp [left, h, hostRank]
  | firstEnable h hi =>
      simp only [left, h, hi, hostRank]
      omega
  | clear h =>
      rw [h] at hiter
      simp only [left, h, hostRank]
      omega
  | observe h | disable h | signal h => simp [left, h, workerRank]
  | execute h hinst =>
      obtain ⟨hb, -, -⟩ := inv.running_spec h hinst
      have hcount := hb.count
      have hle := inv.started_le
      simp only [left, h, workerRank, List.length_append, List.length_singleton]
      omega

/-! ## What the histories say -/

theorem Inv.map_fst_executed (inv : s.Inv numExecs num r) :
    s.executed.map Prod.fst = List.range s.executed.length := by
  have h := congrArg (List.map Prod.fst) inv.executed
  rw [List.map_map] at h
  exact h.trans (List.map_id' _)

theorem Inv.executed_get (inv : s.Inv numExecs num r) {i : Nat} (hi : i < s.executed.length) :
    s.executed[i]? = some (i, bufOf num r i) := by
  rw [inv.executed, List.getElem?_map, List.getElem?_range hi]
  rfl

theorem Inv.length_outputs (inv : s.Inv numExecs num r) : s.outputs.length = s.iter - 1 := by
  rw [inv.outputs, List.length_map, List.length_range]

/-- Every output that was read belongs to a finished execution. -/
theorem Inv.outputs_spec (inv : s.Inv numExecs num r) {i buf : Nat} {contents : List Nat}
    (h : s.outputs[i]? = some (buf, contents)) : s.executed[i]? = some (i, buf) ∧ contents = [i] := by
  have hi : i < s.iter - 1 := inv.length_outputs ▸ (List.getElem?_eq_some_iff.mp h).1
  rw [inv.outputs, List.getElem?_map, List.getElem?_range hi] at h
  obtain ⟨rfl, rfl⟩ := Prod.mk.inj (Option.some.inj h)
  have hcount := inv.sync.count_bounds
  have hle : s.iter ≤ s.started := by
    unfold started
    split <;> omega
  exact ⟨inv.executed_get (by omega), rfl⟩

theorem Sync.running_overlaps (h : s.Sync) {w : Nat} (hw : s.worker = .running w) :
    overlaps s.host = true ∧ w = s.writeIdx := by
  cases h with
  | quiet hq =>
      rw [hq.worker] at hw
      cases hw
  | pending hw' | disabling hw' | signalling hw' =>
      rw [hw'] at hw
      cases hw
  | running hw' hb =>
      rw [hw'] at hw
      exact ⟨hb.overlaps, (WorkerStage.running.inj hw).symm⟩

/-- **While the host reads**: the buffer holds the finished execution before, and the worker is elsewhere. -/
theorem Inv.reading_spec (hnum : 2 ≤ num) (inv : s.Inv numExecs num r) {buf : Nat} (h : s.host = .reading buf) :
    s.executed[s.outputs.length]? = some (s.outputs.length, buf) ∧ s.buffers buf = [s.outputs.length] ∧
      ∀ w, s.worker = .running w → w ≠ buf := by
  have hiter := inv.iter
  have hcount := inv.sync.count_bounds
  have hstarted : s.started = s.iter + 1 := by simp [started, h]
  unfold IterOk at hiter
  rw [h] at hiter
  obtain ⟨k, hk⟩ : ∃ k, s.iter = k + 1 := ⟨s.iter - 1, by omega⟩
  have hlen : s.outputs.length = k := by rw [inv.length_outputs, hk, Nat.add_sub_cancel]
  have hbuf : buf = bufOf num r k := by
    rw [inv.reading buf h, hk]
    rfl
  subst hbuf
  rw [hlen]
  refine ⟨inv.executed_get (by omega), ?_, ?_⟩
  · rw [inv.buffers, hk, Nat.add_sub_cancel]
    exact (outstanding_buffers hnum (by omega) (by omega)).1
  · intro w hw
    obtain ⟨trace, htrace⟩ := inv.exists_trace (by rw [h]; rfl)
    obtain ⟨hb, -, rfl⟩ := inv.running_spec hw htrace
    -- the running execution is the one after the one being read
    have hnext : s.executed.length = k + 1 := by
      have := hb.count
      omega
    rw [hnext]
    exact bufOf_succ_ne hnum k

end PipeState

open PipeState

/-- **Double-buffer pipelining.** For any number of executions and of buffers, any rotation at the start and any
    interleaving: the traces are executed once each and in order; what the host reads for execution `i` is the
    buffer execution `i` was run into, after it finished, and holds the sums of that execution alone; a buffer is
    never read while it is written; the instruction block and the rotation do not change during an execution.
    The protocol terminates, and it can only end with everything executed and read back. -/
theorem pipeline_correct (numExecs num readIdx : Nat) (hexecs : 1 ≤ numExecs) (hnum : 2 ≤ num)
    (hidx : readIdx < num) :
    Terminates (Step numExecs num) (start numExecs num readIdx) ∧
      ∀ s, Run (Step numExecs num) (start numExecs num readIdx) s →
        (s.executed.map Prod.fst = List.range s.executed.length ∧ s.executed.length ≤ numExecs + 1) ∧
        (∀ (i buf : Nat) (contents : List Nat), s.outputs[i]? = some (buf, contents) →
          s.executed[i]? = some (i, buf) ∧ contents = [i]) ∧
        (∀ buf, s.host = .reading buf → s.executed[s.outputs.length]? = some (s.outputs.length, buf) ∧
          s.buffers buf = [s.outputs.length] ∧ ∀ w, s.worker = .running w → w ≠ buf) ∧
        (∀ w, s.worker = .running w → overlaps s.host = true ∧ w = s.writeIdx) ∧
        (Stuck (Step numExecs num) s →
          s.host = .finished ∧ s.executed.length = numExecs + 1 ∧ s.outputs.length = numExecs) := by
  have hinit : (start numExecs num readIdx).Inv numExecs num readIdx := .start hexecs hidx
  have hstep : ∀ a b : PipeState, a.Inv numExecs num readIdx → Step numExecs num a b → b.Inv numExecs num readIdx :=
    fun _ _ ha hab => ha.step hnum hab
  refine ⟨terminates_of_measure (left numExecs) hstep (fun _ _ ha hab => ha.left_lt hab) hinit, ?_⟩
  intro s hrun
  have inv : s.Inv numExecs num readIdx := Run.invariant hstep hinit hrun
  refine ⟨⟨inv.map_fst_executed, ?_⟩, ?_, ?_, fun w hw => inv.sync.running_overlaps hw, ?_⟩
  · exact Nat.le_trans inv.sync.count_bounds.1 inv.started_le
  · exact fun i buf contents h => inv.outputs_spec h
  · exact fun buf h => inv.reading_spec hnum h
  · intro hstuck
    obtain ⟨hfin, hq⟩ := inv.finished_of_stuck hstuck
    have hiter := inv.iter
    unfold IterOk at hiter
    rw [hfin] at hiter
    refine ⟨hfin, ?_, ?_⟩
    · rw [hq.count, started, hfin]
      exact hiter
    · rw [inv.length_outputs, hiter, Nat.add_sub_cancel]

/-- Three executions over two buffers. -/
theorem pipeline_correct_two_buffers :
    Terminates (Step 3 2) (start 3 2 1) ∧
      ∀ s, Run (Step 3 2) (start 3 2 1) s → Stuck (Step 3 2) s → s.executed.length = 4 ∧ s.outputs.length = 3 := by
  obtain ⟨hterm, hrun⟩ := pipeline_correct 3 2 1 (by decide) (by decide) (by decide)
  exact ⟨hterm, fun s hs hstuck => ((hrun s hs).2.2.2.2 hstuck).2⟩

end Pnm.Sls

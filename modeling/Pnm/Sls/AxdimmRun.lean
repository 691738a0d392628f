import Mathlib.Algebra.Order.BigOperators.Group.List
import Mathlib.Data.BitVec
import Pnm.Sls.AxdimmUnit

/-!
# `Sls.AxdimmRun` — running an operation on AXDIMM compute units

The model of `ReductionRunner::run_operation` with `AxdimmReductionRunner`. Every pack with executions is a task: it
acquires a free compute unit of its pack, clears the unit's buffers, runs its traces through the double-buffering
pipeline of `Sls.AxdimmUnit` and releases the unit. The hosts of all tasks and the workers of all units are interleaved
in any way, down to single words of a trace.

A state is good (`Inv`) when every task is: it is alone on its unit, the unit refines the pipeline, and the executions
it has read back are in the user's psum. Units that nobody holds can be cleared and used again.
-/

namespace Pnm.Sls

open Pnm.Lib AxdimmSim Axdimm

namespace Axdimm

/-- A task is waiting in the constructor of its compute unit, holds unit `c`, or has released its unit. -/
inductive TaskPhase where
  | waiting
  | active (c iter : Nat) (host : Host)
  | finished

/-- The unit a task holds. -/
def TaskPhase.unit : TaskPhase → Option Nat
  | active c _ _ => some c
  | _            => none

/-- The device, the user's psum and the tasks. -/
structure State where
  units : Nat → UnitState
  psum : Mem
  phase : Nat → TaskPhase

/-- Steps a worker takes for one enable, at most. -/
def workerSteps : Nat := Topology.axdimm.instPerSingleBuf + 4

/-- Steps of a host and its worker in one iteration, at most. -/
def roundSteps : Nat := workerSteps + 20

/-- Steps left for the worker of a unit until its enable register is set again. -/
def UnitState.left (x : UnitState) : Nat :=
  match x.worker with
  | .idle          => if x.execReg then workerSteps else 0
  | .running _ _ i => 3 + (Topology.axdimm.instPerSingleBuf - i)
  | .disabling     => 2
  | .signalling    => 1 + if x.execReg then workerSteps else 0

/-- Steps left for the host in its iteration. Those up to `setEnable` pay for the worker. -/
def Host.left : Host → Nat
  | enable        => workerSteps + 10
  | wait          => workerSteps + 9
  | writeTrace    => workerSteps + 8
  | shiftBuffers  => workerSteps + 7
  | resetPoll     => workerSteps + 6
  | setEnable     => workerSteps + 5
  | read          => 4
  | clear _       => 3
  | writeResult _ => 2
  | finished      => 1

/-- Steps left for a host with its worker, with `n` executions in all. -/
def TaskPhase.activeLeft (n iter : Nat) (host : Host) (x : UnitState) : Nat :=
  roundSteps * (n + 2 - iter) + host.left + x.left

/-- Steps left for a task. -/
def TaskPhase.left (n : Nat) (units : Nat → UnitState) : TaskPhase → Nat
  | waiting            => roundSteps * (n + 3)
  | active c iter host => activeLeft n iter host (units c)
  | finished           => 0

theorem TaskPhase.left_congr {n : Nat} {units units' : Nat → UnitState} {phase : TaskPhase}
    (h : ∀ c, phase.unit = some c → units' c = units c) : phase.left n units' = phase.left n units := by
  cases phase with
  | active c iter host =>
      show activeLeft n iter host (units' c) = activeLeft n iter host (units c)
      rw [h c rfl]
  | waiting | finished => rfl

/-- Setting the enable register gives the worker one round at most. -/
theorem UnitState.left_enable (x : UnitState) :
    UnitState.left { x with execReg := true } ≤ x.left + workerSteps := by
  unfold UnitState.left
  cases x.worker with
  | idle | signalling =>
      simp only [if_true]
      omega
  | running | disabling =>
      simp only
      omega

/-- All tasks are done: `run_operation` returns. -/
def State.Finished (s : State) : Prop := ∀ p, s.phase p = .finished

end Axdimm

namespace AxdimmSetup

variable (S : AxdimmSetup)

/-- The packs `run_operation` starts. Without any execution the main thread still runs pack 0. -/
def tasks : List Nat :=
  match Topology.axdimm.packIdentifiers.filter fun p => (S.execs p).length ≠ 0 with
  | []    => [0]
  | packs => packs

/-- One step of some task or of some worker. `acquire_cunit_from_range` gets a unit that no task holds, resets its
    registers and starts its thread; `release_cunit` waits for the thread to leave its loop. -/
inductive Step : State → State → Prop where
  | acquire {s p c} (hp : p ∈ S.tasks) (hphase : s.phase p = .waiting) (hc : InPack c p)
      (hfree : ∀ q, (s.phase q).unit ≠ some c) :
      Step s
        { s with
            units := Function.update s.units c { s.units c with worker := .idle, execReg := false, pollReg := false }
            phase := Function.update s.phase p (.active c 0 .enable) }
  | host {s p c iter host iter' host' x psum} (hp : p ∈ S.tasks) (hphase : s.phase p = .active c iter host)
      (h : S.HostStep p c iter host (s.units c) s.psum iter' host' x psum) :
      Step s ⟨Function.update s.units c x, psum, Function.update s.phase p (.active c iter' host')⟩
  | worker {s c x} (h : S.WorkerStep (s.units c) x) :
      Step s { s with units := Function.update s.units c x }
  | release {s p c iter} (hp : p ∈ S.tasks) (hphase : s.phase p = .active c iter .finished)
      (hworker : (s.units c).worker = .idle) :
      Step s { s with phase := Function.update s.phase p .finished }

/-- The start of an operation. -/
def start (units : Nat → UnitState) (psum : Mem) : State :=
  ⟨units, psum, fun p => if p ∈ S.tasks then .waiting else .finished⟩

/-! ## The invariant -/

/-- What is in the host's temporary buffer. -/
def TmpOk (p iter : Nat) : Host → Prop
  | .clear tmp | .writeResult tmp => 1 ≤ iter ∧ ∃ e, (S.execs p)[iter - 1]? = some e ∧ S.HoldsSums e tmp
  | _                             => True

/-- The unit refines a state of the pipeline that satisfies its invariant. -/
def Working (p c iter : Nat) (host : Host) (x : UnitState) : Prop :=
  ∃ r a, PipeState.Inv (S.execs p).length psumDims.num r a ∧ S.Refines p c iter host x a ∧ S.TmpOk p iter host

/-- What the host's place promises about its unit. -/
def HostOk (p c iter : Nat) (host : Host) (x : UnitState) : Prop :=
  match host with
  | .enable => iter = 0 ∧ Idle x ∧ x.pollReg = false
  | host    => S.Working p c iter host x

/-- The output of a (table, batch) pair is in the user's psum. -/
def InPsum (psum : Mem) (key : Nat × Nat) : Prop :=
  ∀ k < S.op.sparseFeatureSize, psum.word (S.op.keyAddr .axdimm key + 4 * k) = S.expected key k

/-- The first `n` executions of a pack are in the user's psum. -/
def Written (p n : Nat) (psum : Mem) : Prop :=
  ∀ key ∈ ((S.execs p).take n).flatMap Execution.keys, S.InPsum psum key

/-- A task is good. -/
def TaskOk (p : Nat) (phase : TaskPhase) (units : Nat → UnitState) (psum : Mem) : Prop :=
  match phase with
  | .waiting            => True
  | .active c iter host => InPack c p ∧ S.Written p (iter - 1) psum ∧ S.HostOk p c iter host (units c)
  | .finished           => S.Written p (S.execs p).length psum

/-- The tables are on the device. -/
def AllLoaded (units : Nat → UnitState) : Prop :=
  ∀ p ∈ Topology.axdimm.packIdentifiers, ∀ c, InPack c p → S.Loaded p c (units c).unit.base

/-- **The invariant.** -/
structure Inv (s : State) : Prop where
  loaded : S.AllLoaded s.units
  exclusive : ∀ p q c, (s.phase p).unit = some c → (s.phase q).unit = some c → p = q
  task : ∀ p ∈ Topology.axdimm.packIdentifiers, S.TaskOk p (s.phase p) s.units s.psum
  others : ∀ p, p ∉ S.tasks → s.phase p = .finished
  idle : ∀ c, (∀ p, (s.phase p).unit ≠ some c) → Idle (s.units c)

variable {S}

/-! ## The tasks -/

theorem Valid.exists_pack (h : S.Valid) {key : Nat × Nat} (hid : key.1 < S.op.tablesSizes.length)
    (hi : key.2 < S.op.minibatchSize) :
    ∃ p ∈ Topology.axdimm.packIdentifiers, key ∈ (S.execs p).flatMap Execution.keys :=
  h.plannable.exists_pack S.env hid hi

theorem Valid.mem_tasks (h : S.Valid) {p : Nat} :
    p ∈ S.tasks ↔ p ∈ Topology.axdimm.packIdentifiers ∧ S.execs p ≠ [] := by
  -- the operation is not empty, so some pack has executions
  obtain ⟨q, hq, hexecs⟩ := h.plannable.exists_execs S.env h.tables h.minibatch
  have htasks : S.tasks = Topology.axdimm.packIdentifiers.filter fun p => (S.execs p).length ≠ 0 := by
    unfold tasks
    split
    · rename_i hnil
      have hempty : S.execs q = [] := by simpa using List.filter_eq_nil_iff.mp hnil q hq
      exact absurd hempty hexecs
    · rfl
  rw [htasks, List.mem_filter]
  simp

section Host

variable {p c iter iter' : Nat} {host host' : Host} {x x' : UnitState} {psum psum' : Mem} {a : PipeState}

/-! ## A step of the host -/

/-- **What the host reads** are the results of the execution before. -/
theorem Refines.read_holds (hv : S.Valid) (hp : p ∈ Topology.axdimm.packIdentifiers) (hc : InPack c p)
    (hload : S.Loaded p c x.unit.base) {tmp : Mem} {e : Execution} (he : (S.execs p)[iter - 1]? = some e) {r : Nat}
    (inv : a.Inv (S.execs p).length psumDims.num r) (href : S.Refines p c iter host x a)
    (hhost : a.host = .reading x.unit.psum.readIdx) (hiter : a.iter = iter) :
    S.HoldsSums e (Mem.copy tmp 0 x.unit.psum.mem (psumDims.size * x.unit.psum.readIdx) e.psumSize) := by
  have hbuf := href.buffers_reading inv hhost
  obtain ⟨-, hcontents, -⟩ := inv.reading_spec (Nat.le_refl 2) hhost
  rw [hcontents, inv.length_outputs, hiter, List.flatMap_singleton, (traceWords_some (c := c) he).2.1] at hbuf
  have hmem := List.mem_of_getElem? he
  intro j key hkey k hk
  have hj : (j + 1) * S.bytes ≤ e.keys.length * S.bytes :=
    Nat.mul_le_mul_right _ (List.getElem?_eq_some_iff.mp hkey).1
  rw [Nat.add_mul, Nat.one_mul] at hj
  have hsize : e.psumSize = e.keys.length * S.bytes := (hv.execOk hp hmem).psumSize
  have hk4 : 4 * k + 4 ≤ S.bytes := by
    rw [bytes_eq]
    omega
  rw [Mem.word_copy (by omega) (by omega), Nat.sub_zero]
  exact hv.expected_of_sums hp hc hmem hload hbuf hkey hk

/-- A started pack has executions, and the first one is written first. -/
theorem Idle.working_start (h : Idle x) (hpoll : x.pollReg = false) (hexecs : S.execs p ≠ []) :
    S.Working p c 0 .writeTrace { x with unit := clearBuffers x.unit } := by
  have hpos := List.length_pos_iff.mpr hexecs
  exact ⟨_, _, PipeState.Inv.start hpos h.bounded.readIdx, h.refines_start hpoll (Nat.pos_iff_ne_zero.mp hpos), trivial⟩

/-- From the first trace on, a unit that refines the pipeline is all there is to promise. -/
theorem hostOk_iff (hne : host ≠ .enable) : S.HostOk p c iter host x ↔ S.Working p c iter host x := by
  cases host with
  | enable => exact absurd rfl hne
  | wait | writeTrace | shiftBuffers | resetPoll | setEnable | read | clear | writeResult | finished => exact Iff.rfl

/-- **A step of the host keeps what its place promises.** -/
theorem HostStep.hostOk (h : S.HostStep p c iter host x psum iter' host' x' psum') (hv : S.Valid)
    (hp : p ∈ Topology.axdimm.packIdentifiers) (hexecs : S.execs p ≠ []) (hc : InPack c p)
    (hload : S.Loaded p c x.unit.base) (hok : S.HostOk p c iter host x) : S.HostOk p c iter' host' x' := by
  by_cases henable : host = .enable
  · subst henable
    obtain ⟨rfl, hidle, hpoll⟩ := hok
    cases h with
    | enable =>
        rw [if_neg (fun h0 => hexecs (List.length_eq_zero_iff.mp h0))]
        exact hidle.working_start hpoll hexecs
  · obtain ⟨r, a, inv, href, htmp⟩ := (hostOk_iff henable).mp hok
    obtain ⟨a', hstep, href'⟩ := h.refines hv hp henable inv href
    have inv' : a'.Inv (S.execs p).length psumDims.num r := by
      rcases hstep with rfl | hstep
      · exact inv
      · exact inv.step (Nat.le_refl 2) hstep
    cases h with
    | enable =>
        exfalso
        exact henable rfl
    | wait =>
        refine (hostOk_iff ?_).mpr ⟨r, a', inv', href', ?_⟩
        · split <;> nofun
        · split <;> trivial
    | writeTrace | shiftBuffers | resetPoll | firstEnable | setEnable => exact ⟨r, a', inv', href', trivial⟩
    | read he =>
        have hiter := inv.iter
        rw [PipeState.IterOk, show a.host = .read from href.host_eq, show a.iter = iter from href.iter_eq] at hiter
        exact ⟨r, a', inv', href', hiter.1, _, he, href'.read_holds hv hp hc hload he inv' href'.host_eq href'.iter_eq⟩
    | clear => exact ⟨r, a', inv', href', htmp⟩
    | writeResult => exact ⟨r, a', inv', href', trivial⟩

/-- The host does not touch the tables. -/
theorem HostStep.base (h : S.HostStep p c iter host x psum iter' host' x' psum') : x'.unit.base = x.unit.base := by
  cases h <;> rfl

/-- The outputs of other packs, and of executions done before, are not touched. -/
theorem HostStep.inPsum_other (h : S.HostStep p c iter host x psum iter' host' x' psum') (hv : S.Valid)
    (hp : p ∈ Topology.axdimm.packIdentifiers) {key : Nat × Nat} (hi : key.2 < S.op.minibatchSize)
    (hkey : ∀ e, (S.execs p)[iter - 1]? = some e → key ∉ e.keys) (hin : S.InPsum psum key) : S.InPsum psum' key := by
  cases h with
  | enable | wait | writeTrace | shiftBuffers | resetPoll | firstEnable | setEnable | read | clear => exact hin
  | writeResult he =>
      intro k hk
      have hok := fun td htd => ((hv.execOk hp (List.mem_of_getElem? he)).chunks td htd).batches
      have hfit : 4 * k + 4 ≤ S.op.sparseFtDataNb .axdimm := by
        show 4 * k + 4 ≤ S.op.sparseFeatureSize * 4
        omega
      rw [SlsOperation.word_writeResult_other hok hi (hkey _ he) hfit]
      exact hin k hk

/-- What a task has finished stays in the user's psum, and `write_result` adds the batches of an execution. -/
theorem HostStep.written (h : S.HostStep p c iter host x psum iter' host' x' psum') (hv : S.Valid)
    (hp : p ∈ Topology.axdimm.packIdentifiers) (hok : S.HostOk p c iter host x) (hw : S.Written p (iter - 1) psum) :
    S.Written p (iter' - 1) psum' := by
  have hframe : ∀ key ∈ ((S.execs p).take (iter - 1)).flatMap Execution.keys, S.InPsum psum' key := by
    intro key hkey
    exact h.inPsum_other hv hp (hv.plannable.key_lt hp (mem_keys_of_take hkey))
      (fun e he => (hv.plannable.keys_at hp he).2 key hkey) (hw key hkey)
  cases h with
  | enable | wait | writeTrace | shiftBuffers | resetPoll | firstEnable | setEnable | read | clear => exact hframe
  | writeResult he =>
      obtain ⟨-, -, -, -, hiter, e, he', hholds⟩ := hok
      obtain rfl : e = _ := Option.some.inj (he'.symm.trans he)
      rw [show iter + 1 - 1 = (iter - 1) + 1 by omega]
      intro key hkey
      rw [List.take_add_one, he, Option.toList_some, List.flatMap_append, List.mem_append] at hkey
      rcases hkey with hkey | hkey
      · exact hframe key hkey
      · obtain ⟨j, hj⟩ := List.mem_iff_getElem?.mp (show key ∈ e.keys by simpa using hkey)
        have hchunks := fun td htd => ((hv.execOk hp (List.mem_of_getElem? he)).chunks td htd).batches
        have hsmall : ∀ td ∈ e.tablesData, td.tableBatchesChunk * S.op.sparseFtDataNb .axdimm < 2 ^ 32 := fun td htd =>
          ((hv.execOk hp (List.mem_of_getElem? he)).chunk_le htd).trans_lt (by decide)
        intro k hk
        have hfit : 4 * k + 4 ≤ S.op.sparseFtDataNb .axdimm := by
          show 4 * k + 4 ≤ S.op.sparseFeatureSize * 4
          omega
        rw [SlsOperation.word_writeResult hchunks hsmall (hv.plannable.keys_at hp he).1 hj hfit, Nat.zero_add]
        exact hholds j key hj k hk

/-- The other packs keep their output. -/
theorem HostStep.written_other (h : S.HostStep p c iter host x psum iter' host' x' psum') (hv : S.Valid)
    (hp : p ∈ Topology.axdimm.packIdentifiers) {q n : Nat} (hq : q ∈ Topology.axdimm.packIdentifiers) (hne : q ≠ p)
    (hw : S.Written q n psum) : S.Written q n psum' := by
  intro key hkey
  have hall := mem_keys_of_take hkey
  refine h.inPsum_other hv hp (hv.plannable.key_lt hq hall) ?_ (hw key hkey)
  intro e he hin
  exact hne (hv.plannable.key_pack hq hp hall (List.mem_flatMap.mpr ⟨e, List.mem_of_getElem? he, hin⟩))

/-! ## A step of the worker -/

/-- The worker of an idle unit has nothing to do. -/
theorem Idle.not_step (h : Idle x) : ¬ S.WorkerStep x x' := by
  intro hstep
  cases hstep with
  | observe _ hexec =>
      rw [h.execReg] at hexec
      cases hexec
  | word hw | lastWord hw | blockEnd hw | disable hw | signal hw =>
      rw [h.worker] at hw
      cases hw

/-- A unit whose worker can move is in the pipeline. -/
theorem WorkerStep.working (h : S.WorkerStep x x') (hok : S.HostOk p c iter host x) :
    host ≠ .enable ∧ S.Working p c iter host x := by
  have hne : host ≠ .enable := by
    rintro rfl
    obtain ⟨-, hidle, -⟩ := hok
    exact absurd h hidle.not_step
  exact ⟨hne, (hostOk_iff hne).mp hok⟩

/-- **A step of the worker keeps what the host's place promises.** -/
theorem WorkerStep.hostOk (h : S.WorkerStep x x') (hv : S.Valid) (hp : p ∈ Topology.axdimm.packIdentifiers)
    (hc : InPack c p) (hok : S.HostOk p c iter host x) :
    S.HostOk p c iter host x' ∧ x'.unit.base = x.unit.base := by
  obtain ⟨hne, r, a, inv, href, htmp⟩ := h.working hok
  obtain ⟨⟨a', hstep, href'⟩, hbase⟩ := h.refines hv hp hc inv href
  refine ⟨(hostOk_iff hne).mpr ⟨r, a', ?_, href', htmp⟩, hbase⟩
  rcases hstep with rfl | hstep
  · exact inv
  · exact inv.step (Nat.le_refl 2) hstep

/-- The end of a pack: everything is written, and the unit can be used again. -/
theorem Working.finished (h : S.Working p c iter .finished x) (hv : S.Valid)
    (hp : p ∈ Topology.axdimm.packIdentifiers) : iter = (S.execs p).length + 1 ∧ Idle x := by
  obtain ⟨r, a, inv, href, -⟩ := h
  have hhost : a.host = .finished := href.host_eq
  have hiter := inv.iter
  rw [PipeState.IterOk, hhost] at hiter
  have hq := inv.sync.quiet_of_not_overlaps (by rw [hhost]; rfl)
  have hw := href.idle hq.worker
  refine ⟨href.iter_eq.symm.trans hiter, hw, href.execReg.symm.trans hq.execReg, href.bounded, ?_, ?_⟩
  · rw [← href.writeIdx, ← href.readIdx, inv.writeIdx, inv.readIdx, PipeState.shiftIndex_mod, Nat.add_right_comm]
    congr 1
  · intro b hb
    exact hv.clearable hp (href.buffers_idle hw hb)

end Host

/-! ## The invariant along a run -/

section Run

variable {s s' : State}

theorem unit_active {p c iter : Nat} {host : Host} (h : s.phase p = .active c iter host) :
    (s.phase p).unit = some c := by
  rw [h]
  rfl

theorem phase_start (units : Nat → UnitState) (psum : Mem) (p : Nat) :
    (S.start units psum).phase p = if p ∈ S.tasks then .waiting else .finished := by
  unfold AxdimmSetup.start
  dsimp only

theorem Inv.start (units : Nat → UnitState) (psum : Mem) (hv : S.Valid) (hload : S.AllLoaded units)
    (hidle : ∀ c, Idle (units c)) : S.Inv (S.start units psum) := by
  have hphase : ∀ p, ((S.start units psum).phase p).unit = none := by
    intro p
    rw [phase_start]
    split <;> rfl
  constructor
  · exact hload
  · intro p q c hp _
    rw [hphase p] at hp
    cases hp
  · intro p hp
    show S.TaskOk p ((S.start units psum).phase p) units psum
    generalize hphase : (S.start units psum).phase p = phase
    rw [phase_start] at hphase
    split at hphase <;> subst hphase
    · trivial
    · -- a pack without executions has nothing to write
      rename_i hmem
      have hnil : S.execs p = [] := by
        by_contra hne
        exact hmem (hv.mem_tasks.mpr ⟨hp, hne⟩)
      intro key hkey
      simp [hnil] at hkey
  · intro p hp
    rw [phase_start, if_neg hp]
  · exact fun c _ => hidle c

/-- **Frame rule.** A task may change if it keeps off the units and the output of the others. -/
theorem Inv.update (h : S.Inv s) {p : Nat} {phase : TaskPhase} {units : Nat → UnitState} {psum : Mem}
    (hp : p ∈ S.tasks) (hload : S.AllLoaded units)
    (hfree : ∀ q d, q ≠ p → (s.phase q).unit = some d → phase.unit ≠ some d ∧ units d = s.units d)
    (hpsum : ∀ q ∈ Topology.axdimm.packIdentifiers, q ≠ p → ∀ n, S.Written q n s.psum → S.Written q n psum)
    (htask : S.TaskOk p phase units psum)
    (hidle : ∀ d, phase.unit ≠ some d → (∀ q, q ≠ p → (s.phase q).unit ≠ some d) → Idle (units d)) :
    S.Inv ⟨units, psum, Function.update s.phase p phase⟩ := by
  constructor
  · exact hload
  · exact exclusive_update h.exclusive fun q d hqp hd => (hfree q d hqp hd).1
  · intro q hq
    show S.TaskOk q (Function.update s.phase p phase q) units psum
    by_cases hqp : q = p
    · subst hqp
      rw [Function.update_self]
      exact htask
    · have hold := h.task q hq
      rw [Function.update_of_ne hqp]
      cases hph : s.phase q with
      | waiting => trivial
      | active d iter host =>
          rw [hph] at hold
          obtain ⟨hc, hwr, hst⟩ := hold
          refine ⟨hc, hpsum q hq hqp _ hwr, ?_⟩
          rw [(hfree q d hqp (unit_active hph)).2]
          exact hst
      | finished =>
          rw [hph] at hold
          exact hpsum q hq hqp _ hold
  · intro q hq
    have hne : q ≠ p := by
      rintro rfl
      exact hq hp
    exact (Function.update_of_ne hne _ _).trans (h.others q hq)
  · intro d hd
    refine hidle d ?_ ?_
    · have := hd p
      simpa only [Function.update_self] using this
    · intro q hqp
      have := hd q
      simpa only [Function.update_of_ne hqp] using this

/-- A task that works on its unit: what is left to show is that the unit stays good. -/
theorem Inv.update_unit (h : S.Inv s) {p c iter iter' : Nat} {host host' : Host} {x : UnitState} {psum : Mem}
    (hp : p ∈ S.tasks) (hphase : s.phase p = .active c iter host) (hbase : x.unit.base = (s.units c).unit.base)
    (hpsum : ∀ q ∈ Topology.axdimm.packIdentifiers, q ≠ p → ∀ n, S.Written q n s.psum → S.Written q n psum)
    (hc : InPack c p) (hwr : S.Written p (iter' - 1) psum) (hok : S.HostOk p c iter' host' x) :
    S.Inv ⟨Function.update s.units c x, psum, Function.update s.phase p (.active c iter' host')⟩ := by
  -- no other task holds unit `c`
  have hother : ∀ q d, q ≠ p → (s.phase q).unit = some d → d ≠ c := by
    rintro q d hqp hd rfl
    exact hqp (h.exclusive q p d hd (unit_active hphase))
  refine h.update hp ?_ ?_ hpsum ⟨hc, hwr, ?_⟩ ?_
  · intro q hq d hd
    have hload := h.loaded q hq d hd
    by_cases hdc : d = c
    · subst hdc
      rw [Function.update_self, hbase]
      exact hload
    · rw [Function.update_of_ne hdc]
      exact hload
  · intro q d hqp hd
    refine ⟨?_, Function.update_of_ne (hother q d hqp hd) _ _⟩
    intro hunit
    exact hother q d hqp hd (Option.some.inj hunit).symm
  · rw [Function.update_self]
    exact hok
  · intro d hd hfree
    have hdc : d ≠ c := fun heq => hd (congrArg some heq.symm)
    rw [Function.update_of_ne hdc]
    refine h.idle d fun q => ?_
    by_cases hqp : q = p
    · subst hqp
      rw [unit_active hphase]
      exact hd
    · exact hfree q hqp

/-- Whoever lets a worker move holds its unit. -/
theorem Inv.holder (h : S.Inv s) {c : Nat} {x : UnitState} (hstep : S.WorkerStep (s.units c) x) :
    ∃ p iter host, p ∈ S.tasks ∧ s.phase p = .active c iter host := by
  by_contra hnone
  refine absurd hstep (h.idle c fun p hp => hnone ?_).not_step
  cases hph : s.phase p with
  | active d iter host =>
      rw [hph] at hp
      obtain rfl : d = c := Option.some.inj hp
      refine ⟨p, iter, host, ?_, hph⟩
      by_contra hmem
      rw [h.others p hmem] at hph
      cases hph
  | waiting | finished =>
      rw [hph] at hp
      cases hp

/-- **Step lemma.** -/
theorem Inv.step (h : S.Inv s) (hv : S.Valid) (hstep : S.Step s s') : S.Inv s' := by
  cases hstep with
  | @acquire p c hp hphase hc hfree =>
      have hidle := h.idle c hfree
      refine h.update hp ?_ ?_ (fun _ _ _ _ hw => hw) ⟨hc, by simp [Written], ?_⟩ ?_
      · intro q hq d hd
        have hload := h.loaded q hq d hd
        by_cases hdc : d = c
        · subst hdc
          rw [Function.update_self]
          exact hload
        · rw [Function.update_of_ne hdc]
          exact hload
      · intro q d _ hd
        have hdc : d ≠ c := by
          rintro rfl
          exact hfree q hd
        exact ⟨fun heq => hdc (Option.some.inj heq).symm, Function.update_of_ne hdc _ _⟩
      · rw [Function.update_self]
        exact ⟨rfl, ⟨rfl, rfl, hidle.bounded, hidle.rotation, hidle.buffers⟩, rfl⟩
      · intro d hd hothers
        have hdc : d ≠ c := fun heq => hd (congrArg some heq.symm)
        rw [Function.update_of_ne hdc]
        refine h.idle d fun q => ?_
        by_cases hqp : q = p
        · subst hqp
          rw [hphase]
          nofun
        · exact hothers q hqp
  | @host p c iter host iter' host' x psum hp hphase hstep =>
      obtain ⟨hpack, hexecs⟩ := hv.mem_tasks.mp hp
      have htask := h.task p hpack
      rw [hphase] at htask
      obtain ⟨hc, hwr, hok⟩ := htask
      exact h.update_unit hp hphase hstep.base (fun q hq hqp n hw => hstep.written_other hv hpack hq hqp hw) hc
        (hstep.written hv hpack hok hwr) (hstep.hostOk hv hpack hexecs hc (h.loaded p hpack c hc) hok)
  | @worker c x hstep =>
      obtain ⟨p, iter, host, hp, hphase⟩ := h.holder hstep
      have hpack := (hv.mem_tasks.mp hp).1
      have htask := h.task p hpack
      rw [hphase] at htask
      obtain ⟨hc, hwr, hok⟩ := htask
      obtain ⟨hok', hbase⟩ := hstep.hostOk hv hpack hc hok
      have hnext := h.update_unit hp hphase hbase (fun _ _ _ _ hw => hw) hc hwr hok'
      rwa [← hphase, Function.update_eq_self] at hnext
  | @release p c iter hp hphase hworker =>
      have hpack := (hv.mem_tasks.mp hp).1
      have htask := h.task p hpack
      rw [hphase] at htask
      obtain ⟨-, hwr, hok⟩ := htask
      obtain ⟨hiter, hidle⟩ := Working.finished hok hv hpack
      refine h.update hp h.loaded (fun q d _ _ => ⟨nofun, rfl⟩) (fun _ _ _ _ hw => hw) ?_ ?_
      · rw [hiter, Nat.add_sub_cancel] at hwr
        exact hwr
      · intro d _ hothers
        by_cases hdc : d = c
        · subst hdc
          exact hidle
        · refine h.idle d fun q => ?_
          by_cases hqp : q = p
          · subst hqp
            rw [unit_active hphase]
            exact fun heq => hdc (Option.some.inj heq).symm
          · exact hothers q hqp

/-! ## Progress -/

section Unit

variable {p c iter : Nat} {host : Host} {x : UnitState} {a : PipeState} {r : Nat}

/-- **A worker with something to do can do it**: no word of a trace is rejected. -/
theorem Refines.exists_workerStep (h : S.Refines p c iter host x a) (hv : S.Valid)
    (hp : p ∈ Topology.axdimm.packIdentifiers) (hc : InPack c p) (hbusy : x.worker ≠ .idle ∨ x.execReg = true) :
    ∃ x', S.WorkerStep x x' := by
  cases hw : x.worker with
  | idle =>
      rw [hw] at hbusy
      exact ⟨_, .observe hw (hbusy.resolve_left fun hne => hne rfl)⟩
  | running bytesPerIdx isTagged i =>
      obtain ⟨t, o, -, -, hle, -, -, hexec, -⟩ := h.exec_word hv hp hc hw
      have hi : i < Topology.axdimm.instPerSingleBuf := Nat.lt_of_le_of_lt hle (hv.traceCount_lt hp t)
      by_cases hend : (decodeInstruction (x.unit.inst.readLE (8 * i) 8)).traceEnd = 0
      · exact ⟨_, .word hw hi hexec hend⟩
      · exact ⟨_, .lastWord hw hi hexec hend⟩
  | disabling => exact ⟨_, .disable hw⟩
  | signalling => exact ⟨_, .signal hw⟩

/-- A worker with nothing to do has run everything that was started. -/
theorem Refines.quiet (h : S.Refines p c iter host x a) (inv : a.Inv (S.execs p).length psumDims.num r)
    (hw : x.worker = .idle) (hexec : x.execReg = false) : a.Quiet := by
  have hworker : a.worker = .idle := by
    rw [h.worker, hw]
    rfl
  have hreg := h.execReg.trans hexec
  cases inv.sync with
  | quiet hq => exact hq
  | pending _ hb =>
      rw [hb.execReg] at hreg
      cases hreg
  | running hrun | disabling hrun | signalling hrun =>
      rw [hrun] at hworker
      cases hworker

/-- **A host whose worker has nothing to do can go on.** -/
theorem Refines.exists_hostStep (h : S.Refines p c iter host x a) (inv : a.Inv (S.execs p).length psumDims.num r)
    (htmp : S.TmpOk p iter host) (hq : a.Quiet) (hhost : host ≠ .finished) (psum : Mem) :
    ∃ iter' host' x' psum', S.HostStep p c iter host x psum iter' host' x' psum' := by
  have hiter := inv.iter
  have habs := h.host_eq
  rw [PipeState.IterOk, h.iter_eq] at hiter
  cases host with
  | enable => exact ⟨_, _, _, _, .enable⟩
  | wait =>
      rw [show a.host = .wait from habs] at hiter
      cases hpoll : x.pollReg with
      | true => exact ⟨_, _, _, _, .wait hpoll⟩
      | false =>
          -- the poll register is only low before the first enable
          exfalso
          rcases hq.pollReg (h.pollReg.trans hpoll) with h0 | h0
          · rw [h.iter_eq] at h0
            exact absurd hiter.1 (by rw [h0]; exact Nat.not_succ_le_zero 0)
          · rw [show a.host = .wait from habs] at h0
            cases h0
  | writeTrace => exact ⟨_, _, _, _, .writeTrace⟩
  | shiftBuffers => exact ⟨_, _, _, _, .shiftBuffers⟩
  | resetPoll => exact ⟨_, _, _, _, .resetPoll⟩
  | setEnable =>
      by_cases h0 : iter = 0
      · subst h0
        exact ⟨_, _, _, _, .firstEnable⟩
      · exact ⟨_, _, _, _, .setEnable h0⟩
  | read =>
      rw [show a.host = .read from habs] at hiter
      obtain ⟨h1, hle⟩ := hiter
      have hlt : iter - 1 < (S.execs p).length := Nat.lt_of_lt_of_le (Nat.sub_lt h1 Nat.one_pos) hle
      obtain ⟨e, he⟩ : ∃ e, (S.execs p)[iter - 1]? = some e := ⟨_, List.getElem?_eq_getElem hlt⟩
      have hread : S.HostStep p c iter .read x psum iter
          (.clear (Mem.copy psum 0 x.unit.psum.mem (psumDims.size * x.unit.psum.readIdx) e.psumSize)) x psum := .read he
      exact ⟨_, _, _, _, hread⟩
  | clear tmp => exact ⟨_, _, _, _, .clear⟩
  | writeResult tmp =>
      obtain ⟨-, e, he, -⟩ := htmp
      exact ⟨_, _, _, _, .writeResult he⟩
  | finished => exact absurd rfl hhost

end Unit

/-- **A task that holds a unit never blocks**: its worker or its host can go on, or it can release the unit. -/
theorem Inv.active_step (h : S.Inv s) (hv : S.Valid) {p c iter : Nat} {host : Host} (hp : p ∈ S.tasks)
    (hphase : s.phase p = .active c iter host) : ∃ s', S.Step s s' := by
  have hpack := (hv.mem_tasks.mp hp).1
  have htask := h.task p hpack
  rw [hphase] at htask
  obtain ⟨hc, -, hok⟩ := htask
  by_cases henable : host = .enable
  · subst henable
    exact ⟨_, .host hp hphase .enable⟩
  · obtain ⟨r, a, inv, href, htmp⟩ := (hostOk_iff henable).mp hok
    by_cases hbusy : (s.units c).worker ≠ .idle ∨ (s.units c).execReg = true
    · obtain ⟨x, hx⟩ := href.exists_workerStep hv hpack hc hbusy
      exact ⟨_, .worker hx⟩
    · rw [not_or, not_not, Bool.not_eq_true] at hbusy
      obtain ⟨hw, hexec⟩ := hbusy
      by_cases hfin : host = .finished
      · subst hfin
        exact ⟨_, .release hp hphase hw⟩
      · obtain ⟨_, _, _, _, hx⟩ := href.exists_hostStep inv htmp (href.quiet inv hw hexec) hfin s.psum
        exact ⟨_, .host hp hphase hx⟩

/-- **No deadlock**: a state without a next step has all tasks finished. -/
theorem Inv.finished_of_stuck (h : S.Inv s) (hv : S.Valid) (hstuck : Stuck S.Step s) : s.Finished := by
  have hactive : ∀ q c iter host, s.phase q ≠ .active c iter host := by
    intro q c iter host hphase
    by_cases hq : q ∈ S.tasks
    · obtain ⟨s', hs'⟩ := h.active_step hv hq hphase
      exact hstuck s' hs'
    · rw [h.others q hq] at hphase
      cases hphase
  intro p
  by_cases hp : p ∈ S.tasks
  · cases hphase : s.phase p with
    | waiting =>
        -- no task holds a unit, so any unit of the pack is free
        obtain ⟨c, hc⟩ := Topology.exists_unit (hv.mem_tasks.mp hp).1
        refine absurd (Step.acquire hp hphase hc ?_) (hstuck _)
        intro q hq
        cases hphq : s.phase q with
        | active d iter host => exact hactive q d iter host hphq
        | waiting | finished =>
            rw [hphq] at hq
            cases hq
    | active c iter host => exact absurd hphase (hactive p c iter host)
    | finished => rfl
  · exact h.others p hp

/-! ## Termination -/

/-- Steps left in all tasks. -/
def left (S : AxdimmSetup) (s : State) : Nat :=
  (S.tasks.map fun p => (s.phase p).left (S.execs p).length s.units).sum

theorem left_lt {p : Nat} {units : Nat → UnitState} {psum : Mem} {phase : Nat → TaskPhase} (hp : p ∈ S.tasks)
    (hother : ∀ q, q ≠ p → phase q = s.phase q ∧ ∀ d, (s.phase q).unit = some d → units d = s.units d)
    (hlt : (phase p).left (S.execs p).length units < (s.phase p).left (S.execs p).length s.units) :
    S.left ⟨units, psum, phase⟩ < S.left s := by
  refine List.sum_lt_sum _ _ ?_ ⟨p, hp, hlt⟩
  intro q _
  by_cases hqp : q = p
  · subst hqp
    exact Nat.le_of_lt hlt
  · obtain ⟨hphase, hunits⟩ := hother q hqp
    show (phase q).left (S.execs q).length units ≤ (s.phase q).left (S.execs q).length s.units
    rw [hphase, TaskPhase.left_congr hunits]

/-- A step of the host, counted with its unit. -/
theorem HostStep.left_lt {p c iter iter' : Nat} {host host' : Host} {x x' : UnitState} {psum psum' : Mem}
    (h : S.HostStep p c iter host x psum iter' host' x' psum') :
    TaskPhase.activeLeft (S.execs p).length iter' host' x' < TaskPhase.activeLeft (S.execs p).length iter host x := by
  cases h with
  | enable =>
      split
      · simp [TaskPhase.activeLeft, Host.left, UnitState.left]
      · simp [TaskPhase.activeLeft, Host.left, UnitState.left]
  | wait =>
      split
      · simp [TaskPhase.activeLeft, Host.left]
      · simp [TaskPhase.activeLeft, Host.left]
  | writeTrace | shiftBuffers | read | clear => simp [TaskPhase.activeLeft, Host.left, UnitState.left]
  | resetPoll => simp [TaskPhase.activeLeft, Host.left, UnitState.left]
  | firstEnable =>
      have hx := UnitState.left_enable x
      simp only [TaskPhase.activeLeft, Host.left, roundSteps]
      rw [show (S.execs p).length + 2 - 0 = ((S.execs p).length + 2 - 1) + 1 by omega, Nat.mul_add]
      omega
  | setEnable hi =>
      have hx := UnitState.left_enable x
      simp only [TaskPhase.activeLeft, Host.left]
      omega
  | writeResult he =>
      have hlt := (List.getElem?_eq_some_iff.mp he).1
      simp only [TaskPhase.activeLeft, Host.left, roundSteps]
      rw [show (S.execs p).length + 2 - iter = ((S.execs p).length + 2 - (iter + 1)) + 1 by omega, Nat.mul_add]
      omega

theorem WorkerStep.left_lt {x x' : UnitState} (h : S.WorkerStep x x') : x'.left < x.left := by
  cases h with
  | observe hw hexec =>
      simp only [UnitState.left, hw, hexec, if_true, workerSteps]
      omega
  | word hw hi | lastWord hw hi | blockEnd hw hi =>
      simp only [UnitState.left, hw]
      omega
  | disable hw | signal hw =>
      simp only [UnitState.left, hw, Bool.false_eq_true, if_false]
      omega

/-- **Every step brings the end closer.** -/
theorem Inv.left_lt (h : S.Inv s) (hstep : S.Step s s') : S.left s' < S.left s := by
  have hexcl : ∀ {p c : Nat} {q d : Nat}, q ≠ p → (s.phase p).unit = some c → (s.phase q).unit = some d → d ≠ c := by
    rintro p c q d hqp hc hd rfl
    exact hqp (h.exclusive q p d hd hc)
  cases hstep with
  | @acquire p c hp hphase hc hfree =>
      refine AxdimmSetup.left_lt hp ?_ ?_
      · intro q hqp
        refine ⟨Function.update_of_ne hqp _ _, fun d hd => Function.update_of_ne ?_ _ _⟩
        rintro rfl
        exact hfree q hd
      · rw [Function.update_self, hphase]
        simp only [TaskPhase.left, TaskPhase.activeLeft, Host.left, UnitState.left, Function.update_self,
          Bool.false_eq_true, if_false, roundSteps, Nat.sub_zero]
        rw [Nat.mul_add _ _ 3, Nat.mul_add _ _ 2]
        omega
  | @host p c iter host iter' host' x psum hp hphase hstep =>
      refine AxdimmSetup.left_lt hp ?_ ?_
      · intro q hqp
        exact ⟨Function.update_of_ne hqp _ _, fun d hd =>
          Function.update_of_ne (hexcl hqp (unit_active hphase) hd) _ _⟩
      · rw [Function.update_self, hphase]
        simp only [TaskPhase.left, Function.update_self]
        exact hstep.left_lt
  | @worker c x hstep =>
      obtain ⟨p, iter, host, hp, hphase⟩ := h.holder hstep
      refine AxdimmSetup.left_lt hp ?_ ?_
      · intro q hqp
        exact ⟨rfl, fun d hd => Function.update_of_ne (hexcl hqp (unit_active hphase) hd) _ _⟩
      · rw [hphase]
        simp only [TaskPhase.left, Function.update_self]
        exact Nat.add_lt_add_left hstep.left_lt _
  | @release p c iter hp hphase hworker =>
      refine AxdimmSetup.left_lt hp ?_ ?_
      · intro q hqp
        exact ⟨Function.update_of_ne hqp _ _, fun d hd => rfl⟩
      · rw [Function.update_self, hphase]
        simp only [TaskPhase.left, TaskPhase.activeLeft, Host.left]
        omega

/-- Once all tasks are finished, every output is in the user's psum. -/
theorem Inv.inPsum_of_finished (h : S.Inv s) (hv : S.Valid) (hfin : s.Finished) {key : Nat × Nat}
    (hid : key.1 < S.op.tablesSizes.length) (hi : key.2 < S.op.minibatchSize) : S.InPsum s.psum key := by
  obtain ⟨p, hp, hkey⟩ := hv.exists_pack hid hi
  have htask := h.task p hp
  rw [hfin p] at htask
  refine htask key ?_
  rwa [List.take_length]

/-- Then it is what the reference computes. -/
theorem Inv.psum_of_finished (h : S.Inv s) (hv : S.Valid) (hfin : s.Finished) (cpsum : Nat → BitVec 32) {t i k : Nat}
    (ht : t < S.op.tablesSizes.length) (hi : i < S.op.minibatchSize) (hk : k < S.op.sparseFeatureSize) :
    s.psum.word (4 * ((t * S.op.minibatchSize + i) * S.op.sparseFeatureSize + k))
      = S.compute cpsum ((t * S.op.minibatchSize + i) * S.op.sparseFeatureSize + k) := by
  have hin : S.InPsum s.psum (t, i) := h.inPsum_of_finished hv hfin ht hi
  rw [AxdimmSetup.compute_eq_expected cpsum ht hi hk, ← hin k hk, SlsOperation.keyAddr]
  show s.psum.word _ = s.psum.word ((t * S.op.minibatchSize + i) * (S.op.sparseFeatureSize * 4) + 4 * k)
  congr 1
  ring

/-- Once all tasks are finished, all units are free. -/
theorem Inv.idle_of_finished (h : S.Inv s) (hfin : s.Finished) (c : Nat) : Idle (s.units c) := by
  refine h.idle c fun p hp => ?_
  rw [hfin p] at hp
  cases hp

end Run

end AxdimmSetup

/-- **End-to-end correctness on the AXDIMM simulator.** From any contents of the user's psum, on any units that are idle
    and have the tables loaded, with any interleaving of the packs and of the workers of their units: the operation
    comes to its end and cannot get stuck before. Then every element of the user's psum is what
    `Reduction<T>::compute` gives with the addition of the element type, and all units are idle again with their tables
    in place, ready for the next operation. -/
theorem axdimm_sls_correct (S : AxdimmSetup) (hv : S.Valid) (units : Nat → UnitState) (hload : S.AllLoaded units)
    (hidle : ∀ c, AxdimmSetup.Idle (units c)) (psum : Mem) (cpsum : Nat → BitVec 32) :
    Terminates S.Step (S.start units psum) ∧
      ∀ s, Run S.Step (S.start units psum) s →
        (Stuck S.Step s → s.Finished) ∧
        (s.Finished →
          (∀ t < S.op.tablesSizes.length, ∀ i < S.op.minibatchSize, ∀ k < S.op.sparseFeatureSize,
            let x := (t * S.op.minibatchSize + i) * S.op.sparseFeatureSize + k
            s.psum.word (4 * x) = S.compute cpsum x) ∧
          S.AllLoaded s.units ∧ ∀ c, AxdimmSetup.Idle (s.units c)) := by
  have hinit := AxdimmSetup.Inv.start units psum hv hload hidle
  have hstep : ∀ a b, S.Inv a → S.Step a b → S.Inv b := fun _ _ ha hab => ha.step hv hab
  refine ⟨terminates_of_measure S.left hstep (fun _ _ ha hab => ha.left_lt hab) hinit, ?_⟩
  intro s hrun
  have hinv : S.Inv s := Run.invariant hstep hinit hrun
  refine ⟨hinv.finished_of_stuck hv, fun hfin => ⟨?_, hinv.loaded, hinv.idle_of_finished hfin⟩⟩
  intro t ht i hi k hk
  exact hinv.psum_of_finished hv hfin cpsum ht hi hk

/-- Two tables on two units, two batches each; every byte of the tables is 1. -/
def axdimmSample : AxdimmSetup where
  op :=
    { opType := .uint32, sparseFeatureSize := 16, tablesSizes := [2, 1], minibatchSize := 2
      lengths := [1, 2, 1, 1], indices := [0, 1, 0, 0, 0] }
  layout := layoutTwoUnits
  env := none
  table := fun _ => 0x01010101
  addF32 := fun a _ => a

/-- A fresh unit whose memory is full of ones. -/
def freshUnit : UnitState :=
  ⟨.idle, false, false, initUnit (fun _ => 1) (fun _ => 1) (fun _ => 1) fun _ => 1⟩

theorem axdimmSample_valid : axdimmSample.Valid where
  untagged := by decide
  feature := Or.inl rfl
  minibatch := by decide
  tables := by decide
  placed := by decide
  consistent := ⟨by decide, by decide⟩
  lengths := by decide
  sums := by unfold SlsOperation.SumsFit; decide
  indices := by decide
  small := by decide
  aligned := by
    intro p _ o ho c _
    have hcases : o = ⟨0, 64, fun _ => 0⟩ ∨ o = ⟨1, 64, fun _ => 0⟩ := by
      change o ∈ layoutTwoUnits p at ho
      unfold layoutTwoUnits at ho
      split at ho
      · exact .inl (List.mem_singleton.mp ho)
      · exact .inr (List.mem_singleton.mp ho)
      · cases ho
    rcases hcases with rfl | rfl
    · exact ⟨rfl, show 0 + axdimmSample.rows 0 * (axdimmSample.op.sparseFeatureSize * 4) ≤ 2 ^ 34 by decide⟩
    · exact ⟨rfl, show 0 + axdimmSample.rows 1 * (axdimmSample.op.sparseFeatureSize * 4) ≤ 2 ^ 34 by decide⟩
  room := by decide +kernel

/-- The second batch of table 0 looks up two rows. -/
theorem axdimm_sls_correct_sample :
    Terminates axdimmSample.Step (axdimmSample.start (fun _ => freshUnit) fun _ => 7) ∧
      ∀ s, Run axdimmSample.Step (axdimmSample.start (fun _ => freshUnit) fun _ => 7) s → s.Finished →
        s.psum.word 64 = 0x02020202 := by
  have hload : axdimmSample.AllLoaded fun _ => freshUnit := by
    intro p _ c _ o _ r _ k _
    simp [freshUnit, initUnit, axdimmSample, Mem.word, Mem.readLE]
  obtain ⟨hterm, hrun⟩ := axdimm_sls_correct axdimmSample axdimmSample_valid (fun _ => freshUnit) hload
    (fun _ => AxdimmSetup.idle_init _ _ _ _ _) (fun _ => 7) fun _ => 0
  refine ⟨hterm, fun s hs hfin => ?_⟩
  have hword := ((hrun s hs).2 hfin).1 0 (by decide) 1 (by decide) 0 (by decide)
  refine hword.trans ?_
  rw [AxdimmSetup.compute_eq_expected _ (by decide) (by decide) (by decide)]
  decide

end Pnm.Sls

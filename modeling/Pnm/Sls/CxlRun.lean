import Mathlib.Algebra.Order.BigOperators.Group.List
import Mathlib.Data.BitVec
import Pnm.Lib.Runs
import Pnm.Sls.CxlExec

/-!
# `Sls.CxlRun` — running an operation on CXL compute units

The model of `ReductionRunner::run_operation` and `CxlReductionRunner`. Every pack with executions is a task.
A task acquires a free compute unit of its pack, processes the executions of the pack one after another
(write the trace, clear the psum block, run, read back, scatter into the user's psum) and releases the unit.
Tasks are interleaved in any way, so sequential runs are among the runs considered here.

A state of the system is good (`Inv`) when every task is: the unit it holds is held by no other task and is
in the state its stage promises, and the executions it has finished are in the user's psum. Steps of a task
touch its own unit and the output of its own batches only, so the other tasks stay good.
-/

namespace Pnm.Sls

open Pnm.Lib

/-- Where a task is in the body of `process_execs`. -/
inductive Stage where
  | ready
  | written
  | cleared
  | executed
  | readBack (tmpBuffer : Mem)

/-- A task is waiting in the constructor of its compute unit, holds unit `c` and processes execution `execId`,
    or has released its unit. -/
inductive Phase where
  | waiting
  | active (c execId : Nat) (stage : Stage)
  | finished

/-- Steps left in the body of the loop. -/
def Stage.left : Stage → Nat
  | ready      => 5
  | written    => 4
  | cleared    => 3
  | executed   => 2
  | readBack _ => 1

/-- Steps left for a task with `n` executions. -/
def Phase.left (n : Nat) : Phase → Nat
  | waiting          => 5 * n + 7
  | active _ k stage => 5 * (n - k) + stage.left + 1
  | finished         => 0

/-- The unit a task holds. -/
def Phase.unit : Phase → Option Nat
  | active c _ _ => some c
  | _            => none

/-- The device, the user's psum and the tasks. -/
structure RunState where
  units : Nat → CxlUnit
  psum : Mem
  phase : Nat → Phase

/-- All tasks are done: `run_operation` returns. -/
def RunState.Finished (s : RunState) : Prop := ∀ p, s.phase p = .finished

namespace CxlSetup

variable (S : CxlSetup)

/-- The packs `run_operation` starts. Without any execution the main thread still runs pack 0. -/
def tasks : List Nat :=
  match Topology.cxl.packIdentifiers.filter fun p => (S.execs p).length ≠ 0 with
  | []    => [0]
  | packs => packs

/-- **The body of `process_execs`** for a task that holds unit `c`: how it changes its stage, its unit and the
    user's psum. -/
inductive Work (p c : Nat) : Nat → Stage → CxlUnit → Mem → Nat → Stage → CxlUnit → Mem → Prop where
  | write {k e u psum} (he : (S.execs p)[k]? = some e) :
      Work p c k .ready u psum k .written { u with inst := Mem.writeWords 8 u.inst 0 (S.trace p c e) } psum
  | reset {k e u psum} (he : (S.execs p)[k]? = some e) :
      Work p c k .written u psum k .cleared { u with psum := u.psum.fill 0 e.psumSize 0 } psum
  | run {k u u' psum} (h : CxlSim.execTrace S.addF32 .cxl u = .ok u') :
      Work p c k .cleared u psum k .executed u' psum
  | read {k e u psum tmp} (he : (S.execs p)[k]? = some e) :
      Work p c k .executed u psum k (.readBack (Mem.copy tmp 0 u.psum 0 e.psumSize)) u psum
  | writeResult {k e u psum tmp} (he : (S.execs p)[k]? = some e) :
      Work p c k (.readBack tmp) u psum (k + 1) .ready u
        (writeResult (S.op.sparseFtDataNb .cxl) (S.op.psumAddr .cxl) tmp e.tablesData 0 psum)

/-- One step of some task. A unit is acquired only while no task holds it. -/
inductive Step : RunState → RunState → Prop where
  | acquire {s p c} (hp : p ∈ S.tasks) (hphase : s.phase p = .waiting) (hc : InPack c p)
      (hfree : ∀ q, (s.phase q).unit ≠ some c) :
      Step s { s with phase := Function.update s.phase p (.active c 0 .ready) }
  | work {s p c k stage k' stage' u' psum'} (hp : p ∈ S.tasks) (hphase : s.phase p = .active c k stage)
      (h : S.Work p c k stage (s.units c) s.psum k' stage' u' psum') :
      Step s ⟨Function.update s.units c u', psum', Function.update s.phase p (.active c k' stage')⟩
  | release {s p c k} (hp : p ∈ S.tasks) (hphase : s.phase p = .active c k .ready)
      (hk : (S.execs p).length ≤ k) :
      Step s { s with phase := Function.update s.phase p .finished }

/-- The start of an operation. -/
def start (units : Nat → CxlUnit) (psum : Mem) : RunState :=
  ⟨units, psum, fun p => if p ∈ S.tasks then .waiting else .finished⟩

/-! ## What a stage promises -/

/-- The results of an execution, one after another from the front of a buffer. -/
def HoldsSums (e : Execution) (m : Mem) : Prop :=
  ∀ j key, e.keys[j]? = some key → ∀ k < S.op.sparseFeatureSize,
    m.word (j * (S.op.sparseFeatureSize * 4) + 4 * k) = S.expected key k

def StageOk (p c k : Nat) (stage : Stage) (u : CxlUnit) : Prop :=
  match stage with
  | .ready        => True
  | .written      => ∃ e, (S.execs p)[k]? = some e ∧ ∃ m, u.inst = Mem.writeWords 8 m 0 (S.trace p c e)
  | .cleared      => ∃ e, (S.execs p)[k]? = some e ∧ (∃ m, u.inst = Mem.writeWords 8 m 0 (S.trace p c e)) ∧
                      ∃ m, u.psum = Mem.fill m 0 e.psumSize 0
  | .executed     => ∃ e, (S.execs p)[k]? = some e ∧ S.HoldsSums e u.psum
  | .readBack tmp => ∃ e, (S.execs p)[k]? = some e ∧ S.HoldsSums e tmp

/-- The output of a (table, batch) pair is in the user's psum. -/
def InPsum (psum : Mem) (key : Nat × Nat) : Prop :=
  ∀ k < S.op.sparseFeatureSize, psum.word (S.op.keyAddr .cxl key + 4 * k) = S.expected key k

/-- The first `n` executions of a pack are in the user's psum. -/
def Written (p n : Nat) (psum : Mem) : Prop :=
  ∀ key ∈ ((S.execs p).take n).flatMap Execution.keys, S.InPsum psum key

/-- A task is good. -/
def TaskOk (p : Nat) (phase : Phase) (units : Nat → CxlUnit) (psum : Mem) : Prop :=
  match phase with
  | .waiting          => True
  | .active c k stage => InPack c p ∧ k ≤ (S.execs p).length ∧ S.Written p k psum ∧ S.StageOk p c k stage (units c)
  | .finished         => S.Written p (S.execs p).length psum

/-- The tables are on the device. -/
def AllLoaded (units : Nat → CxlUnit) : Prop :=
  ∀ p ∈ Topology.cxl.packIdentifiers, ∀ c, InPack c p → S.Loaded p c (units c).base

/-- **The invariant.** -/
structure Inv (s : RunState) : Prop where
  loaded : S.AllLoaded s.units
  exclusive : ∀ p q c, (s.phase p).unit = some c → (s.phase q).unit = some c → p = q
  task : ∀ p ∈ Topology.cxl.packIdentifiers, S.TaskOk p (s.phase p) s.units s.psum
  others : ∀ p, p ∉ S.tasks → s.phase p = .finished

variable {S}

/-! ## The tasks -/

/-- Every (table, batch) pair of the operation is in the plan of some pack. -/
theorem Valid.exists_pack (h : S.Valid) {key : Nat × Nat} (hid : key.1 < S.op.tablesSizes.length)
    (hi : key.2 < S.op.minibatchSize) :
    ∃ p ∈ Topology.cxl.packIdentifiers, key ∈ (S.execs p).flatMap Execution.keys :=
  h.plannable.exists_pack S.env hid hi

theorem Valid.mem_tasks (h : S.Valid) {p : Nat} :
    p ∈ S.tasks ↔ p ∈ Topology.cxl.packIdentifiers ∧ S.execs p ≠ [] := by
  -- the operation is not empty, so some pack has executions
  obtain ⟨q, hq, hexecs⟩ := h.plannable.exists_execs S.env h.tables h.minibatch
  have htasks : S.tasks = Topology.cxl.packIdentifiers.filter fun p => (S.execs p).length ≠ 0 := by
    unfold tasks
    split
    · rename_i hnil
      have hempty : S.execs q = [] := by simpa using List.filter_eq_nil_iff.mp hnil q hq
      exact absurd hempty hexecs
    · rfl
  rw [htasks, List.mem_filter]
  simp

/-! ## One step -/

section Work

variable {p c k k' : Nat} {stage stage' : Stage} {u u' : CxlUnit} {psum psum' : Mem}

/-- Reading back keeps the results. -/
theorem HoldsSums.copy {e : Execution} {m : Mem} (h : S.HoldsSums e m) (tmp : Mem)
    (hsize : e.psumSize = e.keys.length * (S.op.sparseFeatureSize * 4)) :
    S.HoldsSums e (Mem.copy tmp 0 m 0 e.psumSize) := by
  intro j key hkey i hi
  have hj : (j + 1) * (S.op.sparseFeatureSize * 4) ≤ e.keys.length * (S.op.sparseFeatureSize * 4) :=
    Nat.mul_le_mul_right _ (List.getElem?_eq_some_iff.mp hkey).1
  rw [Nat.add_mul, Nat.one_mul] at hj
  rw [hsize, Mem.word_copy (by omega) (by omega), Nat.zero_add, Nat.sub_zero]
  exact h j key hkey i hi

/-- A task keeps what its stage promises. -/
theorem Work.stageOk (h : S.Work p c k stage u psum k' stage' u' psum') (hv : S.Valid)
    (hp : p ∈ Topology.cxl.packIdentifiers) (hc : InPack c p) (hload : S.Loaded p c u.base)
    (hok : S.StageOk p c k stage u) : S.StageOk p c k' stage' u' ∧ u'.base = u.base := by
  cases h with
  | write he => exact ⟨⟨_, he, _, rfl⟩, rfl⟩
  | reset he =>
      obtain ⟨e, he', m, hm⟩ := hok
      obtain rfl : _ = e := Option.some.inj (he.symm.trans he')
      exact ⟨⟨_, he, ⟨m, hm⟩, _, rfl⟩, rfl⟩
  | run hrun =>
      obtain ⟨e, he, ⟨m, hm⟩, m', hm'⟩ := hok
      obtain ⟨w, hw, hbase, hholds⟩ := hv.exec_spec hp hc (List.mem_of_getElem? he) hload hm hm'
      obtain rfl : u' = w := Except.ok.inj (hrun.symm.trans hw)
      exact ⟨⟨e, he, hholds⟩, hbase⟩
  | read he =>
      obtain ⟨e, he', hholds⟩ := hok
      obtain rfl : _ = e := Option.some.inj (he.symm.trans he')
      exact ⟨⟨_, he, hholds.copy _ (hv.execOk hp (List.mem_of_getElem? he)).psumSize⟩, rfl⟩
  | writeResult he => exact ⟨trivial, rfl⟩

/-- The outputs of other packs, and of executions done before, are not touched. -/
theorem Work.inPsum_other (h : S.Work p c k stage u psum k' stage' u' psum') (hv : S.Valid)
    (hp : p ∈ Topology.cxl.packIdentifiers) {key : Nat × Nat} (hi : key.2 < S.op.minibatchSize)
    (hkey : ∀ e, (S.execs p)[k]? = some e → key ∉ e.keys) (hin : S.InPsum psum key) : S.InPsum psum' key := by
  cases h with
  | write | reset | run | read => exact hin
  | writeResult he =>
      intro i hlt
      have hok := fun td htd => ((hv.execOk hp (List.mem_of_getElem? he)).chunks td htd).batches
      rw [SlsOperation.word_writeResult_other hok hi (hkey _ he) (by rw [sparseFtDataNb_eq]; omega)]
      exact hin i hlt

/-- What a task has finished stays in the user's psum, and the last step of an execution adds its batches. -/
theorem Work.written (h : S.Work p c k stage u psum k' stage' u' psum') (hv : S.Valid)
    (hp : p ∈ Topology.cxl.packIdentifiers) (hok : S.StageOk p c k stage u) (hw : S.Written p k psum) :
    S.Written p k' psum' := by
  have hframe : ∀ key ∈ ((S.execs p).take k).flatMap Execution.keys, S.InPsum psum' key := by
    intro key hkey
    exact h.inPsum_other hv hp (hv.plannable.key_lt hp (mem_keys_of_take hkey))
      (fun e he => (hv.plannable.keys_at hp he).2 key hkey) (hw key hkey)
  cases h with
  | write | reset | run | read => exact hframe
  | writeResult he =>
      obtain ⟨e, he', hholds⟩ := hok
      obtain rfl : e = _ := Option.some.inj (he'.symm.trans he)
      intro key hkey
      rw [List.take_add_one, he, Option.toList_some, List.flatMap_append, List.mem_append] at hkey
      rcases hkey with hkey | hkey
      · exact hframe key hkey
      · obtain ⟨j, hj⟩ := List.mem_iff_getElem?.mp (show key ∈ e.keys by simpa using hkey)
        have hchunks := fun td htd => ((hv.execOk hp (List.mem_of_getElem? he)).chunks td htd).batches
        have hfit : ∀ td ∈ e.tablesData, td.tableBatchesChunk * S.op.sparseFtDataNb .cxl < 2 ^ 32 := fun td htd =>
          ((hv.execOk hp (List.mem_of_getElem? he)).chunk_le htd).trans_lt (by decide)
        intro i hi
        rw [SlsOperation.word_writeResult hchunks hfit (hv.plannable.keys_at hp he).1 hj
          (by rw [sparseFtDataNb_eq]; omega), Nat.zero_add]
        exact hholds j key hj i hi

/-- The other packs keep their output. -/
theorem Work.written_other (h : S.Work p c k stage u psum k' stage' u' psum') (hv : S.Valid)
    (hp : p ∈ Topology.cxl.packIdentifiers) {q n : Nat} (hq : q ∈ Topology.cxl.packIdentifiers) (hne : q ≠ p)
    (hw : S.Written q n psum) : S.Written q n psum' := by
  intro key hkey
  have hall := mem_keys_of_take hkey
  refine h.inPsum_other hv hp (hv.plannable.key_lt hq hall) ?_ (hw key hkey)
  intro e he hin
  exact hne (hv.plannable.key_pack hq hp hall (List.mem_flatMap.mpr ⟨e, List.mem_of_getElem? he, hin⟩))

/-- The execution counter stays within the executions of the pack. -/
theorem Work.execId_le (h : S.Work p c k stage u psum k' stage' u' psum') (hk : k ≤ (S.execs p).length) :
    k' ≤ (S.execs p).length := by
  cases h with
  | write | reset | run | read => exact hk
  | writeResult he => exact (List.getElem?_eq_some_iff.mp he).1

end Work

/-! ## The invariant along a run -/

section Run

variable {s s' : RunState}

theorem unit_active {p c k : Nat} {stage : Stage} (h : s.phase p = .active c k stage) :
    (s.phase p).unit = some c := by
  rw [h]
  rfl

theorem phase_start (units : Nat → CxlUnit) (psum : Mem) (p : Nat) :
    (S.start units psum).phase p = if p ∈ S.tasks then .waiting else .finished := by
  unfold CxlSetup.start
  dsimp only

theorem Inv.start (units : Nat → CxlUnit) (psum : Mem) (hv : S.Valid) (hload : S.AllLoaded units) :
    S.Inv (S.start units psum) := by
  have hphase : ∀ p, ((S.start units psum).phase p).unit = none := by
    intro p
    rw [phase_start]
    split <;> rfl
  constructor
  · exact hload
  · intro p q c hp _
    rw [hphase p] at hp
    cases hp
  · intro p hp
    rw [phase_start]
    split
    · trivial
    · -- a pack without executions has nothing to write
      rename_i hmem
      have hnil : S.execs p = [] := by
        by_contra hne
        exact hmem (hv.mem_tasks.mpr ⟨hp, hne⟩)
      intro key hkey
      simp [hnil] at hkey
  · intro p hp
    rw [phase_start, if_neg hp]

/-- **Frame rule.** A task may change its phase if it keeps off the units and the output of the others. -/
theorem Inv.update (h : S.Inv s) {p : Nat} {phase : Phase} {units : Nat → CxlUnit} {psum : Mem}
    (hp : p ∈ S.tasks) (hload : S.AllLoaded units)
    (hfree : ∀ q d, q ≠ p → (s.phase q).unit = some d → phase.unit ≠ some d ∧ units d = s.units d)
    (hpsum : ∀ q ∈ Topology.cxl.packIdentifiers, q ≠ p → ∀ n, S.Written q n s.psum → S.Written q n psum)
    (htask : S.TaskOk p phase units psum) : S.Inv ⟨units, psum, Function.update s.phase p phase⟩ := by
  constructor
  · exact hload
  · exact exclusive_update h.exclusive fun q d hqp hd => (hfree q d hqp hd).1
  · intro q hq
    show S.TaskOk q (Function.update s.phase p phase q) units psum
    by_cases hqp : q = p
    · subst hqp
      rw [Function.update_self]
      exact htask
    · have hold := h.task q hq
      rw [Function.update_of_ne hqp]
      cases hph : s.phase q with
      | waiting => trivial
      | active d n stage =>
          rw [hph] at hold
          obtain ⟨hc, hn, hwr, hst⟩ := hold
          refine ⟨hc, hn, hpsum q hq hqp n hwr, ?_⟩
          rw [(hfree q d hqp (unit_active hph)).2]
          exact hst
      | finished =>
          rw [hph] at hold
          exact hpsum q hq hqp _ hold
  · intro q hq
    have hne : q ≠ p := by
      rintro rfl
      exact hq hp
    exact (Function.update_of_ne hne _ _).trans (h.others q hq)

/-- **Step lemma.** -/
theorem Inv.step (h : S.Inv s) (hv : S.Valid) (hstep : S.Step s s') : S.Inv s' := by
  cases hstep with
  | acquire hp hphase hc hfree =>
      refine h.update hp h.loaded ?_ (fun _ _ _ _ hw => hw) ⟨hc, Nat.zero_le _, by simp [Written], trivial⟩
      intro q d _ hd
      refine ⟨?_, rfl⟩
      rintro ⟨⟩
      exact hfree q hd
  | @work p c k stage k' stage' u' psum' hp hphase hwork =>
      have hpack := (hv.mem_tasks.mp hp).1
      have htask := h.task p hpack
      rw [hphase] at htask
      obtain ⟨hc, hk, hwr, hst⟩ := htask
      obtain ⟨hst', hbase⟩ := hwork.stageOk hv hpack hc (h.loaded p hpack c hc) hst
      -- no other task holds unit `c`
      have hother : ∀ q d, q ≠ p → (s.phase q).unit = some d → d ≠ c := by
        rintro q d hqp hd rfl
        exact hqp (h.exclusive q p d hd (unit_active hphase))
      refine h.update hp ?_ ?_ (fun q hq hqp n hw => hwork.written_other hv hpack hq hqp hw) ?_
      · intro q hq d hd
        have hload := h.loaded q hq d hd
        by_cases hdc : d = c
        · subst hdc
          rw [Function.update_self, hbase]
          exact hload
        · rw [Function.update_of_ne hdc]
          exact hload
      · intro q d hqp hd
        refine ⟨?_, Function.update_of_ne (hother q d hqp hd) _ _⟩
        intro hunit
        exact hother q d hqp hd (Option.some.inj hunit).symm
      · refine ⟨hc, hwork.execId_le hk, hwork.written hv hpack hst hwr, ?_⟩
        rw [Function.update_self]
        exact hst'
  | @release p c k hp hphase hk =>
      have htask := h.task p (hv.mem_tasks.mp hp).1
      rw [hphase] at htask
      obtain ⟨-, hle, hwr, -⟩ := htask
      refine h.update hp h.loaded ?_ (fun _ _ _ _ hw => hw) ?_
      · rintro q d - -
        exact ⟨nofun, rfl⟩
      · rw [Nat.le_antisymm hle hk] at hwr
        exact hwr

/-! ## Progress and termination -/

/-- **A task that holds a unit can always go on.** -/
theorem Inv.active_step (h : S.Inv s) (hv : S.Valid) {p c k : Nat} {stage : Stage} (hp : p ∈ S.tasks)
    (hphase : s.phase p = .active c k stage) : ∃ s', S.Step s s' := by
  have hpack := (hv.mem_tasks.mp hp).1
  have htask := h.task p hpack
  rw [hphase] at htask
  obtain ⟨hc, hk, -, hst⟩ := htask
  cases stage with
  | ready =>
      by_cases hlt : k < (S.execs p).length
      · exact ⟨_, .work hp hphase (.write (List.getElem?_eq_getElem hlt))⟩
      · exact ⟨_, .release hp hphase (Nat.not_lt.mp hlt)⟩
  | written =>
      obtain ⟨e, he, -⟩ := hst
      exact ⟨_, .work hp hphase (.reset he)⟩
  | cleared =>
      obtain ⟨e, he, ⟨m, hm⟩, m', hm'⟩ := hst
      obtain ⟨u', hrun, -⟩ := hv.exec_spec hpack hc (List.mem_of_getElem? he) (h.loaded p hpack c hc) hm hm'
      exact ⟨_, .work hp hphase (.run hrun)⟩
  | executed =>
      obtain ⟨e, he, -⟩ := hst
      have hread : S.Work p c k .executed (s.units c) s.psum k
          (.readBack (Mem.copy s.psum 0 (s.units c).psum 0 e.psumSize)) (s.units c) s.psum := .read he
      exact ⟨_, .work hp hphase hread⟩
  | readBack tmp =>
      obtain ⟨e, he, -⟩ := hst
      exact ⟨_, .work hp hphase (.writeResult he)⟩

/-- **No deadlock**: a state without a next step has all tasks finished. -/
theorem Inv.finished_of_stuck (h : S.Inv s) (hv : S.Valid) (hstuck : Stuck S.Step s) : s.Finished := by
  have hactive : ∀ q c k stage, s.phase q ≠ .active c k stage := by
    intro q c k stage hphase
    by_cases hq : q ∈ S.tasks
    · obtain ⟨s', hs'⟩ := h.active_step hv hq hphase
      exact hstuck s' hs'
    · rw [h.others q hq] at hphase
      cases hphase
  intro p
  by_cases hp : p ∈ S.tasks
  · cases hphase : s.phase p with
    | waiting =>
        -- no task holds a unit, so any unit of the pack is free
        obtain ⟨c, hc⟩ := Topology.exists_unit (hv.mem_tasks.mp hp).1
        refine absurd (Step.acquire hp hphase hc ?_) (hstuck _)
        intro q hq
        cases hphq : s.phase q with
        | waiting => simp [hphq, Phase.unit] at hq
        | active c' k stage => exact hactive q c' k stage hphq
        | finished => simp [hphq, Phase.unit] at hq
    | active c k stage => exact absurd hphase (hactive p c k stage)
    | finished => rfl
  · exact h.others p hp

/-- Steps left in all tasks. -/
def left (S : CxlSetup) (s : RunState) : Nat :=
  (S.tasks.map fun p => (s.phase p).left (S.execs p).length).sum

theorem left_update_lt {p : Nat} {phase : Phase} {units : Nat → CxlUnit} {psum : Mem} (hp : p ∈ S.tasks)
    (hlt : phase.left (S.execs p).length < (s.phase p).left (S.execs p).length) :
    S.left ⟨units, psum, Function.update s.phase p phase⟩ < S.left s := by
  refine List.sum_lt_sum _ _ ?_ ⟨p, hp, by simpa only [Function.update_self] using hlt⟩
  intro q _
  by_cases hqp : q = p
  · subst hqp
    simp only [Function.update_self]
    exact Nat.le_of_lt hlt
  · simp only [Function.update_of_ne hqp, Nat.le_refl]

theorem Work.left_lt {p c k k' : Nat} {stage stage' : Stage} {u u' : CxlUnit} {psum psum' : Mem}
    (h : S.Work p c k stage u psum k' stage' u' psum') :
    (Phase.active c k' stage').left (S.execs p).length < (Phase.active c k stage).left (S.execs p).length := by
  cases h with
  | write | reset | run | read => simp [Phase.left, Stage.left]
  | writeResult he =>
      have := (List.getElem?_eq_some_iff.mp he).1
      simp only [Phase.left, Stage.left]
      omega

/-- Every step brings the end closer. -/
theorem Step.left_lt (hstep : S.Step s s') : S.left s' < S.left s := by
  cases hstep with
  | acquire hp hphase hc hfree =>
      refine left_update_lt hp ?_
      rw [hphase]
      simp [Phase.left, Stage.left]
  | work hp hphase hwork =>
      refine left_update_lt hp ?_
      rw [hphase]
      exact hwork.left_lt
  | release hp hphase hk =>
      refine left_update_lt hp ?_
      rw [hphase]
      simp [Phase.left]

/-- Once all tasks are finished, every output is in the user's psum. -/
theorem Inv.inPsum_of_finished (h : S.Inv s) (hv : S.Valid) (hfin : s.Finished) {key : Nat × Nat}
    (hid : key.1 < S.op.tablesSizes.length) (hi : key.2 < S.op.minibatchSize) : S.InPsum s.psum key := by
  obtain ⟨p, hp, hkey⟩ := hv.exists_pack hid hi
  have htask := h.task p hp
  rw [hfin p] at htask
  refine htask key ?_
  rwa [List.take_length]

end Run

end CxlSetup

/-- **End-to-end correctness on the CXL simulator.** From any contents of the user's psum and of the device
    (apart from the loaded tables), with any interleaving of the packs: the operation comes to its end, it
    cannot get stuck before, and then every element of the user's psum is what `Reduction<uint32_t>::compute`
    gives, the sum modulo 2^32 of the looked-up rows. -/
theorem cxl_sls_correct (S : CxlSetup) (hv : S.Valid) (units : Nat → CxlUnit) (hload : S.AllLoaded units)
    (psum : Mem) (cpsum : Nat → BitVec 32) :
    Terminates S.Step (S.start units psum) ∧
      ∀ s, Run S.Step (S.start units psum) s →
        (Stuck S.Step s → s.Finished) ∧
        (s.Finished → ∀ t < S.op.tablesSizes.length, ∀ i < S.op.minibatchSize, ∀ k < S.op.sparseFeatureSize,
          let x := (t * S.op.minibatchSize + i) * S.op.sparseFeatureSize + k
          s.psum.word (4 * x) = Reduction.compute S.table S.op.tablesSizes S.op.indices S.op.lengths
            S.op.sparseFeatureSize S.op.minibatchSize cpsum x ∧
          s.psum.word (4 * x) = ((S.op.lookups (t, i)).map fun r =>
            S.table ((S.op.tablesSizes.take t).sum * S.op.sparseFeatureSize
              + r * S.op.sparseFeatureSize + k)).sum) := by
  have hinit := CxlSetup.Inv.start units psum hv hload
  have hstep : ∀ a b, S.Inv a → S.Step a b → S.Inv b := fun _ _ ha hab => ha.step hv hab
  refine ⟨terminates_of_measure S.left hstep (fun _ _ _ hab => hab.left_lt) hinit, ?_⟩
  intro s hrun
  have hinv : S.Inv s := Run.invariant hstep hinit hrun
  refine ⟨hinv.finished_of_stuck hv, ?_⟩
  intro hfin t ht i hi k hk
  have hword : s.psum.word (4 * ((t * S.op.minibatchSize + i) * S.op.sparseFeatureSize + k)) = S.expected (t, i) k := by
    have hin : S.InPsum s.psum (t, i) := hinv.inPsum_of_finished hv hfin ht hi
    rw [← hin k hk, SlsOperation.keyAddr, CxlSetup.sparseFtDataNb_eq]
    congr 1
    ring
  refine ⟨?_, ?_⟩
  · rw [hword, Reduction.compute_eq S.table S.op.indices S.op.lengths cpsum ht hi hk]
    rfl
  · rw [hword]
    exact Reduction.rowsSum_eq_sum S.table (S.tableBegin t) S.op.sparseFeatureSize (S.op.lookups (t, i)) k

/-- Two tables on two units, two batches each; every byte of the tables is 1. -/
def cxlSample : CxlSetup where
  op :=
    { opType := .uint32, sparseFeatureSize := 16, tablesSizes := [2, 1], minibatchSize := 2
      lengths := [1, 2, 1, 1], indices := [0, 1, 0, 0, 0] }
  layout := layoutTwoUnits
  env := none
  table := fun _ => 0x01010101
  addF32 := fun a _ => a

/-- A unit whose memory is full of ones. -/
def unitOfOnes : CxlUnit := ⟨fun _ => 1, fun _ => 1, fun _ => 1, fun _ => 1, 0⟩

theorem cxlSample_valid : cxlSample.Valid where
  opType := rfl
  feature := Or.inl rfl
  minibatch := by decide
  tables := by decide
  placed := by decide
  consistent := ⟨by decide, by decide⟩
  lengths := by decide
  sums := by unfold SlsOperation.SumsFit; decide
  indices := by decide
  small := by decide
  aligned := by
    intro p hp o ho c _
    rw [show Topology.cxl.packIdentifiers = [1, 2, 3] from rfl] at hp
    simp only [List.mem_cons, List.not_mem_nil, or_false] at hp
    rcases hp with rfl | rfl | rfl
    · obtain rfl := List.mem_singleton.mp ho
      exact ⟨rfl, show 0 + cxlSample.rows 0 * (cxlSample.op.sparseFeatureSize * 4) ≤ 2 ^ 34 by decide⟩
    · obtain rfl := List.mem_singleton.mp ho
      exact ⟨rfl, show 0 + cxlSample.rows 1 * (cxlSample.op.sparseFeatureSize * 4) ≤ 2 ^ 34 by decide⟩
    · cases ho

/-- The second batch of table 0 looks up two rows. -/
theorem cxl_sls_correct_sample :
    Terminates cxlSample.Step (cxlSample.start (fun _ => unitOfOnes) (fun _ => 7)) ∧
      ∀ s, Run cxlSample.Step (cxlSample.start (fun _ => unitOfOnes) (fun _ => 7)) s → s.Finished →
        s.psum.word 64 = 0x02020202 := by
  have hload : cxlSample.AllLoaded fun _ => unitOfOnes := by
    intro p _ c _ o _ r _ k _
    simp [unitOfOnes, cxlSample, Mem.word, Mem.readLE]
  obtain ⟨hterm, hrun⟩ := cxl_sls_correct cxlSample cxlSample_valid (fun _ => unitOfOnes) hload (fun _ => 7)
    (fun _ => 0)
  refine ⟨hterm, fun s hs hfin => ?_⟩
  exact ((hrun s hs).2 hfin 0 (by decide) 1 (by decide) 0 (by decide)).2

end Pnm.Sls

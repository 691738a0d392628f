import Pnm.Threads.ActionQueue
import Mathlib.Algebra.Group.Nat.Defs
import Mathlib.Data.List.Nodup
import Mathlib.Data.List.Range

/-!
# `Threads.RunOperation` — the tasks of a reduction and the thread that waits for them

The model of `ReductionRunner::run_operation`. The main thread keeps the first pack with executions for itself and
pushes a task for each of the others; workers take them from the queue. Then it runs its own pack, and gets the futures
in the order of the pushes. A task holds a reference to the operation, and the destructor of a future of a
`std::packaged_task` does not wait: what keeps a task from outliving the operation is that the main thread has got its
future. It gets no future after an exception, be it of its own pack or of another task.

Workers differ in nothing but what they run, so they are a list of the tasks that are run and a bound on its length.
The queue is that of one operation: others that share the pool would only make its tasks wait.
-/

namespace Pnm.Threads

open Pnm.Lib

/-- An operation and its runner: how many iterations a pack has, which tasks throw, and how many workers there are. -/
structure ReductionRun where
  numOfCUnits : Nat
  numExecIterations : Nat → Nat
  throws : Nat → Bool
  numOfWorkers : Nat

namespace ReductionRun

/-- Where the main thread is: in the loop over the packs, with those that are left; in the loop over the futures;
    or it has left `run_operation`, by an exception or not. -/
inductive Main where
  | assigning (packs : List Nat) (packForMainThread : Nat)
  | collecting (i : Nat)
  | left (threw : Bool)

structure State where
  main : Main
  runQueue : List Nat
  queue : ActionQueue Nat
  running : List Nat
  finished : List Nat

/-- The main thread goes on, a worker takes an action, or a worker finishes a task. -/
inductive Event where
  | main
  | pop
  | finish (task : Nat)

section Definitions

variable (o : ReductionRun)

/-- `RankMemory::pack_identifiers`. -/
def packIdentifiers : List Nat := List.range' 1 (2 ^ o.numOfCUnits - 1)

def init : State :=
  { main := .assigning o.packIdentifiers 0
    runQueue := []
    queue := { actions := [], isActive := true }
    running := []
    finished := [] }

/-- `run_operation`, up to the next point where others may come in between. A pack is converted to `uint8_t` where it
    is looked up and where it is kept for the main thread. `get` returns when the task has finished. -/
def mainNext (s : State) : Option State :=
  match s.main with
  | .assigning (pack :: packs) packForMainThread =>
      if o.numExecIterations (pack % 2 ^ 8) = 0 then some { s with main := .assigning packs packForMainThread }
      else if packForMainThread = 0 then some { s with main := .assigning packs (pack % 2 ^ 8) }
      else
        some { s with
          main := .assigning packs packForMainThread
          runQueue := s.runQueue ++ [pack]
          queue := (ActionQueue.monitor.body s.queue (.push pack)).1 }
  | .assigning [] packForMainThread =>
      some { s with main := if o.throws packForMainThread then .left true else .collecting 0 }
  | .collecting i =>
      match s.runQueue[i]? with
      | none      => some { s with main := .left false }
      | some task =>
          if task ∈ s.finished then
            some { s with main := if o.throws task then .left true else .collecting (i + 1) }
          else none
  | .left _ => none

/-- `ActionConsumer::start`: an idle worker takes the oldest action. -/
def popNext (s : State) : Option State :=
  if s.running.length < o.numOfWorkers ∧ s.queue.ready = true then
    match s.queue.pop with
    | (queue, .action task) => some { s with queue := queue, running := task :: s.running }
    | _                     => none
  else none

def next (s : State) : Event → Option State
  | .main        => o.mainNext s
  | .pop         => o.popNext s
  | .finish task =>
      if task ∈ s.running then
        some { s with running := s.running.erase task, finished := task :: s.finished }
      else none

def step (s t : State) : Prop := ∃ e, o.next s e = some t

/-- The loop over the packs: the pack for the main thread, and those that are pushed. -/
def assign (acc : Nat × List Nat) (pack : Nat) : Nat × List Nat :=
  if o.numExecIterations (pack % 2 ^ 8) = 0 then acc
  else if acc.1 = 0 then (pack % 2 ^ 8, acc.2)
  else (acc.1, acc.2 ++ [pack])

def assigned : Nat × List Nat := o.packIdentifiers.foldl o.assign (0, [])

/-- The pack of the main thread. -/
def own : Nat := o.assigned.1

/-- The packs that are pushed. -/
def queued : List Nat := o.assigned.2

end Definitions

/-- **No task outlives the operation.** -/
def Contained (s : State) : Prop := ∀ threw, s.main = .left threw → ∀ task ∈ s.runQueue, task ∈ s.finished

variable {o : ReductionRun} {s t : State}

/-! ## What every step keeps -/

/-- What is known where the main thread is. -/
def MainInv (o : ReductionRun) (s : State) : Prop :=
  match s.main with
  | .assigning packs packForMainThread => packs.foldl o.assign (packForMainThread, s.runQueue) = o.assigned
  | .collecting i =>
      s.runQueue = o.queued ∧ o.throws o.own = false ∧
        ∀ task ∈ s.runQueue.take i, task ∈ s.finished ∧ o.throws task = false
  | .left false =>
      s.runQueue = o.queued ∧ o.throws o.own = false ∧ ∀ task ∈ s.runQueue, task ∈ s.finished ∧ o.throws task = false
  | .left true =>
      s.runQueue = o.queued ∧
        (o.throws o.own = true ∨ ∃ i task, s.runQueue[i]? = some task ∧ o.throws task = true ∧
          ∀ other ∈ s.runQueue.take (i + 1), other ∈ s.finished)

structure Inv (o : ReductionRun) (s : State) : Prop where
  isOpen : s.queue.isActive = true
  pending : ∀ task ∈ s.runQueue, task ∈ s.finished ∨ task ∈ s.running ∨ task ∈ s.queue.actions
  idle : o.numOfWorkers = 0 → s.running = [] ∧ s.finished = []
  main : MainInv o s

theorem inv_init (o : ReductionRun) : Inv o o.init where
  isOpen := rfl
  pending := fun _ h => absurd h List.not_mem_nil
  idle := fun _ => ⟨rfl, rfl⟩
  main := rfl

/-- Finished tasks stay finished, so workers do not disturb the main thread. -/
theorem MainInv.of_workers (h : MainInv o s) (hmain : t.main = s.main) (hrun : t.runQueue = s.runQueue)
    (hfinished : s.finished ⊆ t.finished) : MainInv o t := by
  unfold MainInv at h ⊢
  rw [hmain, hrun]
  split at h
  · exact h
  · obtain ⟨hall, hown, hgot⟩ := h
    exact ⟨hall, hown, fun task htask => ⟨hfinished (hgot task htask).1, (hgot task htask).2⟩⟩
  · obtain ⟨hall, hown, hgot⟩ := h
    exact ⟨hall, hown, fun task htask => ⟨hfinished (hgot task htask).1, (hgot task htask).2⟩⟩
  · obtain ⟨hall, hthrows⟩ := h
    refine ⟨hall, hthrows.imp_right ?_⟩
    rintro ⟨i, task, hi, hthrow, hgot⟩
    exact ⟨i, task, hi, hthrow, fun other hother => hfinished (hgot other hother)⟩

/-- The main thread takes no task from the workers. -/
theorem mainNext_frame (h : o.mainNext s = some t) :
    t.running = s.running ∧ t.finished = s.finished ∧
      ((t.runQueue = s.runQueue ∧ t.queue = s.queue) ∨
        ∃ pack, t.runQueue = s.runQueue ++ [pack] ∧
          t.queue = { s.queue with actions := s.queue.actions ++ [pack] }) := by
  unfold mainNext at h
  split at h
  · split at h
    · cases h
      exact ⟨rfl, rfl, .inl ⟨rfl, rfl⟩⟩
    · split at h
      · cases h
        exact ⟨rfl, rfl, .inl ⟨rfl, rfl⟩⟩
      · cases h
        exact ⟨rfl, rfl, .inr ⟨_, rfl, rfl⟩⟩
  · cases h
    exact ⟨rfl, rfl, .inl ⟨rfl, rfl⟩⟩
  · split at h
    · cases h
      exact ⟨rfl, rfl, .inl ⟨rfl, rfl⟩⟩
    · obtain ⟨-, rfl⟩ := of_guarded h
      exact ⟨rfl, rfl, .inl ⟨rfl, rfl⟩⟩
  · cases h

theorem forall_take_succ {α : Type*} {l : List α} {i : Nat} {a : α} (ha : l[i]? = some a) (P : α → Prop) :
    (∀ b ∈ l.take (i + 1), P b) ↔ (∀ b ∈ l.take i, P b) ∧ P a := by
  rw [List.take_add_one, ha, Option.toList_some, List.forall_mem_append, List.forall_mem_singleton]

/-- The loop over the packs. -/
theorem mainInv_assign {pack packForMainThread : Nat} {packs : List Nat}
    (hmain : s.main = .assigning (pack :: packs) packForMainThread) (hinv : MainInv o s)
    (h : o.mainNext s = some t) : MainInv o t := by
  rw [MainInv, hmain] at hinv
  rw [mainNext, hmain] at h
  dsimp only at hinv h
  rw [List.foldl_cons, assign] at hinv
  split at h
  · rename_i hnone
    rw [if_pos hnone] at hinv
    cases h
    exact hinv
  · rename_i hsome
    rw [if_neg hsome] at hinv
    split at h
    · rename_i hown
      rw [if_pos hown] at hinv
      cases h
      exact hinv
    · rename_i hown
      rw [if_neg hown] at hinv
      cases h
      exact hinv

/-- The main thread's own pack. -/
theorem mainInv_own {packForMainThread : Nat} (hmain : s.main = .assigning [] packForMainThread)
    (hinv : MainInv o s) (h : o.mainNext s = some t) : MainInv o t := by
  rw [MainInv, hmain] at hinv
  rw [mainNext, hmain] at h
  have hassigned : (packForMainThread, s.runQueue) = o.assigned := hinv
  have hown : packForMainThread = o.own := congrArg Prod.fst hassigned
  have hqueued : s.runQueue = o.queued := congrArg Prod.snd hassigned
  subst hown
  cases h
  cases hthrows : o.throws o.own with
  | true => exact ⟨hqueued, .inl hthrows⟩
  | false => exact ⟨hqueued, hthrows, fun task htask => absurd htask (by simp)⟩

/-- The loop over the futures. -/
theorem mainInv_get {i : Nat} (hmain : s.main = .collecting i) (hinv : MainInv o s) (h : o.mainNext s = some t) :
    MainInv o t := by
  rw [MainInv, hmain] at hinv
  rw [mainNext, hmain] at h
  obtain ⟨hqueued, hown, hgot⟩ := hinv
  dsimp only at h
  split at h
  · rename_i hend
    cases h
    rw [List.take_of_length_le (List.getElem?_eq_none_iff.mp hend)] at hgot
    exact ⟨hqueued, hown, hgot⟩
  · rename_i task htask
    obtain ⟨hfinished, rfl⟩ := of_guarded h
    cases hthrows : o.throws task with
    | true =>
        have hall : ∀ other ∈ s.runQueue.take (i + 1), other ∈ s.finished :=
          (forall_take_succ htask _).mpr ⟨fun other hother => (hgot other hother).1, hfinished⟩
        exact ⟨hqueued, .inr ⟨i, task, htask, hthrows, hall⟩⟩
    | false => exact ⟨hqueued, hown, (forall_take_succ htask _).mpr ⟨hgot, hfinished, hthrows⟩⟩

/-- The main thread, one action at a time. -/
theorem MainInv.mainNext (hinv : MainInv o s) (h : o.mainNext s = some t) : MainInv o t := by
  cases hmain : s.main with
  | assigning packs packForMainThread =>
      cases packs with
      | nil => exact mainInv_own hmain hinv h
      | cons pack packs => exact mainInv_assign hmain hinv h
  | collecting i => exact mainInv_get hmain hinv h
  | left threw =>
      rw [ReductionRun.mainNext, hmain] at h
      cases h

/-- What a worker takes. -/
theorem popNext_eq_some (hopen : s.queue.isActive = true) (h : o.popNext s = some t) :
    s.running.length < o.numOfWorkers ∧ ∃ task rest, s.queue.actions = task :: rest ∧
      t = { s with queue := { s.queue with actions := rest }, running := task :: s.running } := by
  unfold popNext at h
  split at h
  · rename_i hready
    refine ⟨hready.1, ?_⟩
    rcases ActionQueue.pop_cases hready.2 with ⟨task, rest, hactions, hpop⟩ | ⟨-, hclosed, -⟩
    · rw [hpop] at h
      cases h
      exact ⟨task, rest, hactions, rfl⟩
    · rw [hopen] at hclosed
      cases hclosed
  · cases h

/-- **One step keeps the invariant.** -/
theorem Inv.next (hinv : Inv o s) {e : Event} (h : o.next s e = some t) : Inv o t := by
  cases e with
  | main =>
      obtain ⟨hrunning, hfinished, hqueue⟩ := mainNext_frame h
      refine ⟨?_, ?_, ?_, hinv.main.mainNext h⟩
      · rcases hqueue with ⟨-, hq⟩ | ⟨pack, -, hq⟩
        · rw [hq]
          exact hinv.isOpen
        · rw [hq]
          exact hinv.isOpen
      · rw [hrunning, hfinished]
        rcases hqueue with ⟨hr, hq⟩ | ⟨pack, hr, hq⟩
        · rw [hr, hq]
          exact hinv.pending
        · rw [hr, hq]
          intro task htask
          rcases List.mem_append.mp htask with htask | htask
          · exact (hinv.pending task htask).imp_right (.imp_right (List.mem_append_left _))
          · exact .inr (.inr (List.mem_append_right _ htask))
      · rw [hrunning, hfinished]
        exact hinv.idle
  | pop =>
      obtain ⟨hidle, task, rest, hactions, rfl⟩ := popNext_eq_some hinv.isOpen h
      refine ⟨hinv.isOpen, fun other hother => ?_, fun hzero => ?_, ?_⟩
      · rcases hinv.pending other hother with hdone | hrun | hqueued
        · exact .inl hdone
        · exact .inr (.inl (List.mem_cons_of_mem _ hrun))
        · rw [hactions] at hqueued
          rcases List.mem_cons.mp hqueued with rfl | hrest
          · exact .inr (.inl List.mem_cons_self)
          · exact .inr (.inr hrest)
      · rw [hzero] at hidle
        exact absurd hidle (Nat.not_lt_zero _)
      · exact hinv.main.of_workers rfl rfl (List.Subset.refl _)
  | finish task =>
      obtain ⟨htask, rfl⟩ := of_guarded h
      refine ⟨hinv.isOpen, fun other hother => ?_, fun hzero => ?_, ?_⟩
      · rcases hinv.pending other hother with hdone | hrun | hqueued
        · exact .inl (List.mem_cons_of_mem _ hdone)
        · by_cases heq : other = task
          · rw [heq]
            exact .inl List.mem_cons_self
          · exact .inr (.inl ((List.mem_erase_of_ne heq).mpr hrun))
        · exact .inr (.inr hqueued)
      · rw [(hinv.idle hzero).1] at htask
        cases htask
      · exact hinv.main.of_workers rfl rfl (List.subset_cons_self _ _)

theorem Inv.of_run (h : Run o.step o.init s) : Inv o s :=
  Run.invariant (fun _ _ hinv ⟨_, hnext⟩ => hinv.next hnext) (inv_init o) h

/-! ## Who waits for all -/

/-- The exception of the main thread's own pack leaves no task behind, and neither does that of another task. -/
def WaitsForAll (o : ReductionRun) : Prop :=
  (o.queued = [] ∨ o.throws o.own = false) ∧
    (o.numOfWorkers = 0 ∨ ∀ task ∈ o.queued.dropLast, o.throws task = false)

theorem Inv.contained (hinv : Inv o s) (hwaits : o.WaitsForAll) : Contained s := by
  intro threw hleft
  obtain ⟨hown, hothers⟩ := hwaits
  have hmain := hinv.main
  unfold MainInv at hmain
  rw [hleft] at hmain
  cases threw with
  | false => exact fun task htask => (hmain.2.2 task htask).1
  | true =>
      obtain ⟨hqueued, hthrows | ⟨i, task, hi, hthrows, hgot⟩⟩ := hmain
      · rw [hqueued, hown.resolve_right (by simp [hthrows])]
        exact fun task htask => absurd htask List.not_mem_nil
      · obtain ⟨hlt, rfl⟩ := List.getElem?_eq_some_iff.mp hi
        have hfinished := hgot _ (List.mem_take_iff_getElem.mpr ⟨i, by omega, rfl⟩)
        rcases hothers with hzero | hothers
        · rw [(hinv.idle hzero).2] at hfinished
          cases hfinished
        · -- the task that throws is the last one
          have hlast : s.runQueue.length ≤ i + 1 := by
            by_contra hlt'
            rw [← hqueued] at hothers
            have hmem : s.runQueue[i] ∈ s.runQueue.dropLast := by
              rw [List.dropLast_eq_take]
              exact List.mem_take_iff_getElem.mpr ⟨i, by omega, rfl⟩
            exact Bool.false_ne_true ((hothers _ hmem).symm.trans hthrows)
          rw [List.take_of_length_le hlast] at hgot
          exact hgot

/-- Whether a task throws is what the caller sees. -/
theorem Inv.threw_iff (hinv : Inv o s) {threw : Bool} (hleft : s.main = .left threw) :
    threw = true ↔ ∃ task ∈ o.own :: o.queued, o.throws task = true := by
  have hmain := hinv.main
  unfold MainInv at hmain
  rw [hleft] at hmain
  cases threw with
  | false =>
      obtain ⟨hqueued, hown, hgot⟩ := hmain
      rw [hqueued] at hgot
      refine iff_of_false Bool.false_ne_true ?_
      rintro ⟨task, htask, hthrows⟩
      rcases List.mem_cons.mp htask with rfl | htask
      · exact Bool.false_ne_true (hown.symm.trans hthrows)
      · exact Bool.false_ne_true ((hgot task htask).2.symm.trans hthrows)
  | true =>
      obtain ⟨hqueued, hthrows | ⟨i, task, hi, hthrows, -⟩⟩ := hmain
      · exact iff_of_true rfl ⟨_, List.mem_cons_self, hthrows⟩
      · rw [hqueued] at hi
        exact iff_of_true rfl ⟨task, List.mem_cons_of_mem _ (List.mem_of_getElem? hi), hthrows⟩

/-! ## Who leaves -/

/-- What is left to do. -/
def remaining (s : State) : Nat :=
  2 * s.queue.actions.length + s.running.length +
    match s.main with
    | .assigning packs _ => 4 * packs.length + s.runQueue.length + 2
    | .collecting i      => s.runQueue.length - i + 1
    | .left _            => 0

theorem remaining_mainNext (h : o.mainNext s = some t) : remaining t < remaining s := by
  unfold mainNext at h
  unfold remaining
  split at h
  · rename_i hmain
    rw [hmain]
    split at h
    · cases h
      simp only [List.length_cons]
      omega
    · split at h
      · cases h
        simp only [List.length_cons]
        omega
      · cases h
        simp only [ActionQueue.monitor, List.length_cons, List.length_append, List.length_nil]
        omega
  · rename_i packForMainThread hmain
    rw [hmain]
    cases h
    cases o.throws packForMainThread <;> simp
  · rename_i i hmain
    rw [hmain]
    split at h
    · cases h
      simp
    · rename_i task htask
      obtain ⟨-, rfl⟩ := of_guarded h
      have hlt := (List.getElem?_eq_some_iff.mp htask).1
      cases o.throws task with
      | true => simp
      | false =>
          simp only [Bool.false_eq_true, if_false]
          omega
  · cases h

theorem remaining_next (hinv : Inv o s) {e : Event} (h : o.next s e = some t) : remaining t < remaining s := by
  cases e with
  | main => exact remaining_mainNext h
  | pop =>
      obtain ⟨-, task, rest, hactions, rfl⟩ := popNext_eq_some hinv.isOpen h
      simp only [remaining, hactions, List.length_cons]
      omega
  | finish task =>
      obtain ⟨htask, rfl⟩ := of_guarded h
      have hlength := List.length_erase_of_mem htask
      have hpos := List.length_pos_of_mem htask
      simp only [remaining, hlength]
      omega

/-- Every run comes to an end. -/
theorem terminates (o : ReductionRun) : Terminates o.step o.init :=
  terminates_of_measure remaining (fun _ _ hinv ⟨_, hnext⟩ => hinv.next hnext)
    (fun _ _ hinv ⟨_, hnext⟩ => remaining_next hinv hnext) (inv_init o)

/-- If there are workers, a task that is not finished gives one of them something to do. -/
theorem exists_step_of_pending (hinv : Inv o s) (hworkers : 0 < o.numOfWorkers) {task : Nat} (htask : task ∈ s.runQueue)
    (hnot : task ∉ s.finished) : ∃ t, o.step s t := by
  rcases (hinv.pending task htask).resolve_left hnot with hrun | hqueued
  · exact ⟨_, .finish task, if_pos hrun⟩
  · cases hrunning : s.running with
    | cons other rest =>
        have hother : other ∈ s.running := hrunning ▸ List.mem_cons_self
        exact ⟨_, .finish other, if_pos hother⟩
    | nil =>
        have hready : s.queue.ready = true := by
          by_contra hnot
          have hempty := (ActionQueue.ready_eq_false.mp (Bool.eq_false_iff.mpr hnot)).1
          rw [hempty] at hqueued
          cases hqueued
        rcases ActionQueue.pop_cases hready with ⟨oldest, rest, -, hpop⟩ | ⟨-, hclosed, -⟩
        · have hidle : s.running.length < o.numOfWorkers := by
            rw [hrunning]
            exact hworkers
          exact ⟨{ s with queue := { s.queue with actions := rest }, running := oldest :: s.running }, .pop,
            by rw [next, popNext, if_pos ⟨hidle, hready⟩, hpop]⟩
        · rw [hinv.isOpen] at hclosed
          cases hclosed

/-- The main thread can go on, has left, or waits for a task. -/
theorem mainNext_cases (o : ReductionRun) (s : State) :
    (∃ t, o.mainNext s = some t) ∨ (∃ threw, s.main = .left threw) ∨
      ∃ i task, s.main = .collecting i ∧ s.runQueue[i]? = some task ∧ task ∉ s.finished := by
  cases hmain : s.main with
  | assigning packs own =>
      left
      cases packs with
      | nil => exact ⟨_, by rw [mainNext, hmain]⟩
      | cons pack packs =>
          rw [mainNext, hmain]
          dsimp only
          split
          · exact ⟨_, rfl⟩
          · split <;> exact ⟨_, rfl⟩
  | collecting i =>
      cases htask : s.runQueue[i]? with
      | none =>
          left
          rw [mainNext, hmain]
          simp only [htask]
          exact ⟨_, rfl⟩
      | some task =>
          by_cases hfinished : task ∈ s.finished
          · left
            rw [mainNext, hmain]
            simp only [htask, if_pos hfinished]
            exact ⟨_, rfl⟩
          · exact .inr (.inr ⟨i, task, rfl, htask, hfinished⟩)
  | left threw => exact .inr (.inl ⟨threw, rfl⟩)

/-- At the end of a run the main thread has left, unless it waits for tasks that nobody takes. -/
theorem Inv.leaves_iff (hinv : Inv o s) (hstuck : Stuck o.step s) :
    (∃ threw, s.main = .left threw) ↔ 0 < o.numOfWorkers ∨ o.queued = [] ∨ o.throws o.own = true := by
  have hmain := hinv.main
  unfold MainInv at hmain
  constructor
  · rintro ⟨threw, hleft⟩
    rw [hleft] at hmain
    by_contra hnone
    rw [not_or, not_or, Nat.not_lt, Nat.le_zero] at hnone
    obtain ⟨hzero, hne, hnot⟩ := hnone
    -- no task has finished, so no future has been got
    have hfinished := (hinv.idle hzero).2
    cases threw with
    | false =>
        obtain ⟨hqueued, -, hgot⟩ := hmain
        obtain ⟨task, htask⟩ := List.exists_mem_of_ne_nil _ hne
        have hdone := (hgot task (hqueued ▸ htask)).1
        rw [hfinished] at hdone
        cases hdone
    | true =>
        obtain ⟨-, hthrows | ⟨i, task, hi, -, hgot⟩⟩ := hmain
        · exact hnot hthrows
        · have hdone := hgot task (List.mem_of_getElem? (by rw [List.getElem?_take_of_lt (Nat.lt_succ_self i), hi]))
          rw [hfinished] at hdone
          cases hdone
  · intro hcond
    rcases mainNext_cases o s with ⟨t, ht⟩ | hleft | ⟨i, task, hcollecting, hi, hnot⟩
    · exact absurd ⟨.main, ht⟩ (hstuck t)
    · exact hleft
    · rw [hcollecting] at hmain
      obtain ⟨hqueued, hown, -⟩ := hmain
      have htask := List.mem_of_getElem? hi
      rcases hcond with hworkers | hempty | hthrows
      · obtain ⟨t, ht⟩ := exists_step_of_pending hinv hworkers htask hnot
        exact absurd ht (hstuck t)
      · rw [hqueued, hempty] at htask
        cases htask
      · exact absurd (hown.symm.trans hthrows) Bool.false_ne_true

/-! ## Runs that leave tasks behind -/

/-- The state in the loop over the packs, if no worker has begun yet. -/
def assigningState (packs : List Nat) (acc : Nat × List Nat) : State :=
  { main := .assigning packs acc.1
    runQueue := acc.2
    queue := { actions := acc.2, isActive := true }
    running := []
    finished := [] }

theorem step_assigning (pack : Nat) (packs : List Nat) (acc : Nat × List Nat) :
    o.step (assigningState (pack :: packs) acc) (assigningState packs (o.assign acc pack)) := by
  refine ⟨.main, ?_⟩
  rw [next, mainNext, assign]
  dsimp only [assigningState]
  split
  · rfl
  · split <;> rfl

theorem run_assigning (packs : List Nat) (acc : Nat × List Nat) :
    Run o.step (assigningState packs acc) (assigningState [] (packs.foldl o.assign acc)) := by
  induction packs generalizing acc with
  | nil => exact .refl
  | cons pack packs ih => exact .head (step_assigning pack packs acc) (ih _)

/-- All tasks are queued and the main thread has run its own pack. -/
theorem run_own (o : ReductionRun) :
    Run o.step o.init { assigningState [] o.assigned with
      main := if o.throws o.own then .left true else .collecting 0 } :=
  (run_assigning o.packIdentifiers (0, [])).tail ⟨.main, rfl⟩

/-- A worker takes the oldest tasks, one after another. -/
theorem run_workers (hworkers : 0 < o.numOfWorkers) (tasks rest : List Nat) (main : Main)
    (runQueue finished : List Nat) :
    Run o.step (.mk main runQueue ⟨tasks ++ rest, true⟩ [] finished)
      (.mk main runQueue ⟨rest, true⟩ [] (tasks.reverse ++ finished)) := by
  induction tasks generalizing finished with
  | nil => exact .refl
  | cons task tasks ih =>
      have hpop : o.step (.mk main runQueue ⟨task :: tasks ++ rest, true⟩ [] finished)
          (.mk main runQueue ⟨tasks ++ rest, true⟩ [task] finished) := by
        refine ⟨.pop, ?_⟩
        rw [next, popNext, if_pos ⟨hworkers, rfl⟩]
        rfl
      have hfinish : o.step (.mk main runQueue ⟨tasks ++ rest, true⟩ [task] finished)
          (.mk main runQueue ⟨tasks ++ rest, true⟩ [] (task :: finished)) := by
        refine ⟨.finish task, ?_⟩
        rw [next, if_pos List.mem_cons_self, List.erase_cons_head]
      rw [List.reverse_cons, List.append_assoc]
      exact .head hpop (.head hfinish (ih (task :: finished)))

/-- The main thread gets the futures of tasks that have finished. -/
theorem run_collecting (before done rest : List Nat) (hdone : ∀ task ∈ done, o.throws task = false)
    (hmain : s.main = .collecting before.length) (hrun : s.runQueue = before ++ done ++ rest)
    (hfinished : ∀ task ∈ done, task ∈ s.finished) :
    Run o.step s { s with main := .collecting (before ++ done).length } := by
  induction done generalizing s before with
  | nil => rw [List.append_nil, ← hmain]
  | cons task done ih =>
      have htask : s.runQueue[before.length]? = some task := by
        rw [hrun, List.append_assoc, List.getElem?_append_right (Nat.le_refl _), Nat.sub_self]
        rfl
      have hstep : o.step s { s with main := .collecting (before ++ [task]).length } := by
        refine ⟨.main, ?_⟩
        rw [next, mainNext, hmain]
        simp only [htask, if_pos (hfinished task List.mem_cons_self), hdone task List.mem_cons_self]
        rw [List.length_append]
        rfl
      have hsplit : before ++ task :: done = before ++ [task] ++ done := by simp
      rw [hsplit]
      rw [hsplit] at hrun
      exact .head hstep (ih (s := { s with main := .collecting (before ++ [task]).length }) (before ++ [task])
        (fun task h => hdone task (List.mem_cons_of_mem _ h)) rfl hrun
        fun task h => hfinished task (List.mem_cons_of_mem _ h))

/-- The main thread's own pack throws before any task has finished. -/
theorem run_own_throws (hthrows : o.throws o.own = true) :
    ∃ s, Run o.step o.init s ∧ s.main = .left true ∧ s.runQueue = o.queued ∧ s.finished = [] := by
  have hrun := run_own o
  rw [if_pos hthrows] at hrun
  exact ⟨_, hrun, rfl, rfl, rfl⟩

/-- A task throws before those behind it have begun. -/
theorem run_queued_throws (hown : o.throws o.own = false) (hworkers : 0 < o.numOfWorkers) (done : List Nat) {task : Nat}
    {rest : List Nat} (hqueued : o.queued = done ++ task :: rest) (hdone : ∀ other ∈ done, o.throws other = false)
    (hthrows : o.throws task = true) :
    ∃ s, Run o.step o.init s ∧ s.main = .left true ∧ s.runQueue = o.queued ∧
      s.finished = (done ++ [task]).reverse := by
  have hrun := run_own o
  rw [if_neg (by simp [hown])] at hrun
  have hsplit : o.assigned.2 = done ++ [task] ++ rest := by
    rw [← queued, hqueued]
    simp
  let t : State :=
    { main := .collecting 0
      runQueue := o.assigned.2
      queue := ⟨rest, true⟩
      running := []
      finished := (done ++ [task]).reverse ++ [] }
  have hwork : Run o.step { assigningState [] o.assigned with main := .collecting 0 } t := by
    have hrun := run_workers hworkers (done ++ [task]) rest (.collecting 0) o.assigned.2 []
    rw [← hsplit] at hrun
    exact hrun
  have hcollect : Run o.step t { t with main := .collecting done.length } := by
    have hfinished : ∀ other ∈ done, other ∈ t.finished := by
      intro other hother
      simp [t, hother]
    rw [List.append_assoc] at hsplit
    exact run_collecting [] done ([task] ++ rest) hdone rfl hsplit hfinished
  have hthrow : o.step { t with main := .collecting done.length } { t with main := .left true } := by
    refine ⟨.main, ?_⟩
    have htask : o.assigned.2[done.length]? = some task := by
      rw [hsplit]
      simp
    rw [next, mainNext]
    simp [t, htask, hthrows]
  exact ⟨_, ((hrun.trans hwork).trans hcollect).tail hthrow, rfl, rfl, List.append_nil _⟩

/-- The packs are different. -/
theorem sublist_foldl_assign (packs : List Nat) (acc : Nat × List Nat) :
    (packs.foldl o.assign acc).2.Sublist (acc.2 ++ packs) := by
  induction packs generalizing acc with
  | nil => simp
  | cons pack packs ih =>
      have hstep : (o.assign acc pack).2.Sublist (acc.2 ++ [pack]) := by
        rw [assign]
        split
        · exact List.sublist_append_left _ _
        · split
          · exact List.sublist_append_left _ _
          · exact List.Sublist.refl _
      have happend := hstep.append_right packs
      rw [List.append_assoc] at happend
      exact (ih _).trans happend

theorem nodup_queued (o : ReductionRun) : o.queued.Nodup :=
  (sublist_foldl_assign o.packIdentifiers (0, [])).nodup List.nodup_range'

/-- If a task is not the last one and throws, there is a first such task. -/
theorem exists_first_throw {task : Nat} (htask : task ∈ o.queued.dropLast) (hthrows : o.throws task = true) :
    ∃ done first next rest, o.queued = done ++ first :: next :: rest ∧ (∀ other ∈ done, o.throws other = false) ∧
      o.throws first = true := by
  obtain ⟨first, hfirst⟩ := Option.isSome_iff_exists.mp (List.find?_isSome.mpr ⟨task, htask, hthrows⟩)
  obtain ⟨hthrow, done, rest, hsplit, hdone⟩ := List.find?_eq_some_iff_append.mp hfirst
  have hne : o.queued ≠ [] := by
    rintro hnil
    rw [hnil] at htask
    cases htask
  have hall := List.dropLast_append_getLast hne
  rw [hsplit, List.append_assoc, List.cons_append] at hall
  refine ⟨done, first, ?_⟩
  cases rest with
  | nil => exact ⟨_, [], hall.symm, by simpa using hdone, hthrow⟩
  | cons next rest => exact ⟨next, rest ++ [o.queued.getLast hne], hall.symm, by simpa using hdone, hthrow⟩

/-- **Runs show whether tasks are left behind.** -/
theorem contained_iff (o : ReductionRun) : (∀ s, Run o.step o.init s → Contained s) ↔ o.WaitsForAll := by
  refine ⟨fun h => ?_, fun hwaits s hrun => (Inv.of_run hrun).contained hwaits⟩
  have hfirst : o.queued = [] ∨ o.throws o.own = false := by
    by_contra hnone
    rw [not_or, Bool.not_eq_false] at hnone
    obtain ⟨s, hrun, hleft, hqueued, hfinished⟩ := run_own_throws hnone.2
    obtain ⟨task, htask⟩ := List.exists_mem_of_ne_nil _ hnone.1
    have hdone := h s hrun true hleft task (hqueued ▸ htask)
    rw [hfinished] at hdone
    cases hdone
  refine ⟨hfirst, ?_⟩
  by_contra hnone
  rw [not_or] at hnone
  obtain ⟨hworkers, hsome⟩ := hnone
  push Not at hsome
  simp only [Bool.ne_false_iff] at hsome
  obtain ⟨task, htask, hthrows⟩ := hsome
  obtain ⟨done, first, next, rest, hsplit, hdone, hthrow⟩ := exists_first_throw htask hthrows
  have hown : o.throws o.own = false := by
    refine hfirst.resolve_left fun hnil => ?_
    rw [hnil] at hsplit
    simp at hsplit
  obtain ⟨s, hrun, hleft, hqueued, hfinished⟩ :=
    run_queued_throws hown (Nat.pos_of_ne_zero hworkers) done hsplit hdone hthrow
  have hlast := h s hrun true hleft next (by rw [hqueued, hsplit]; simp)
  rw [hfinished, List.mem_reverse] at hlast
  have hnodup := o.nodup_queued
  rw [hsplit, List.append_cons] at hnodup
  exact (List.nodup_append.mp hnodup).2.2 next hlast next List.mem_cons_self rfl

/-- **Tasks and the operation.** Over all interleavings of the main thread and the workers, the main thread leaves
    only after every task has finished, exactly if its own pack does not throw and no task but the last one does (or
    there is nothing to leave behind); it leaves by an exception exactly if a task throws; and every run ends, with
    the main thread gone unless it waits for workers that do not exist. -/
theorem run_operation_contained_iff (o : ReductionRun) :
    ((∀ s, Run o.step o.init s → Contained s) ↔ o.WaitsForAll) ∧
    (∀ s threw, Run o.step o.init s → s.main = .left threw →
      (threw = true ↔ ∃ task ∈ o.own :: o.queued, o.throws task = true)) ∧
    Terminates o.step o.init ∧
    ∀ s, Run o.step o.init s → Stuck o.step s →
      ((∃ threw, s.main = .left threw) ↔ 0 < o.numOfWorkers ∨ o.queued = [] ∨ o.throws o.own = true) :=
  ⟨contained_iff o, fun _ _ hrun hleft => (Inv.of_run hrun).threw_iff hleft, terminates o,
    fun _ hrun hstuck => (Inv.of_run hrun).leaves_iff hstuck⟩

/-- Two units, so three packs, all with executions. -/
def threePacks (throws : Nat → Bool) : ReductionRun :=
  { numOfCUnits := 2, numExecIterations := fun pack => if pack = 0 then 0 else 1, throws := throws, numOfWorkers := 1 }

/-- The task that is pushed last throws: the caller gets the exception after both tasks have finished. -/
theorem run_operation_last_throws :
    (threePacks (· = 3)).queued = [2, 3] ∧
      (∀ s, Run (threePacks (· = 3)).step (threePacks (· = 3)).init s → Contained s) ∧
      ∀ s, Run (threePacks (· = 3)).step (threePacks (· = 3)).init s → Stuck (threePacks (· = 3)).step s →
        s.main = .left true := by
  obtain ⟨hcontained, hthrew, -, hleaves⟩ := run_operation_contained_iff (threePacks (· = 3))
  refine ⟨by decide, hcontained.mpr ⟨.inr (by decide), .inr (by decide)⟩, fun s hrun hstuck => ?_⟩
  obtain ⟨threw, hleft⟩ := (hleaves s hrun hstuck).mpr (.inl (by decide))
  rw [hleft, (hthrew s threw hrun hleft).mpr ⟨3, by decide, by decide⟩]

/-- The main thread's own pack throws, and it leaves before any of the tasks 2 and 3 has finished. Task 2 throws, and
    the main thread leaves before task 3 has finished. -/
theorem run_operation_leaves_tasks :
    (∃ s, Run (threePacks (· = 1)).step (threePacks (· = 1)).init s ∧ s.main = .left true ∧ s.runQueue = [2, 3] ∧
      s.finished = []) ∧
    ∃ s, Run (threePacks (· = 2)).step (threePacks (· = 2)).init s ∧ s.main = .left true ∧ s.runQueue = [2, 3] ∧
      s.finished = [2] := by
  have hqueued : ∀ throws, (threePacks throws).queued = [2, 3] := fun _ => rfl
  constructor
  · obtain ⟨s, hrun, hleft, hall, hfinished⟩ := run_own_throws (o := threePacks (· = 1)) (by decide)
    exact ⟨s, hrun, hleft, hall.trans (hqueued _), hfinished⟩
  · obtain ⟨s, hrun, hleft, hall, hfinished⟩ := run_queued_throws (o := threePacks (· = 2)) (by decide)
      (by decide) [] (hqueued _) (by simp) (by decide)
    exact ⟨s, hrun, hleft, hall.trans (hqueued _), hfinished⟩

end ReductionRun

end Pnm.Threads

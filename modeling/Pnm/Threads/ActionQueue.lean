import Pnm.Lib.Monitor
import Pnm.Lib.Runs

/-!
# `Threads.ActionQueue` — the queue between producers and consumers

The model of `common/threads/action_queue.h`: a queue of actions under a mutex with a condition variable, as a
monitor whose operations are `push`, `pop`, `close` and `reopen`. `ProducerConsumer::run` pushes, an
`ActionConsumer` pops until it gets nothing, and the destructor of `ProducerConsumer` closes; here any thread may
call any operation at any time. An action is a task that can be run, as `run` makes it; an empty one is only what
`pop` returns.

`push` notifies inside its critical section and `close` after it, when others may have entered already; `reopen`
does not notify, and need not.
-/

namespace Pnm.Threads

open Pnm.Lib

variable {α : Type*}

/-- `ActionQueue`. -/
structure ActionQueue (α : Type*) where
  actions : List α
  isActive : Bool

inductive QueueOp (α : Type*) where
  | push (action : α)
  | pop
  | close
  | reopen

/-- What an operation returns: nothing, an action, or the empty action. `undefined` is the front of an empty queue. -/
inductive QueueRet (α : Type*) where
  | done
  | action (action : α)
  | empty
  | undefined

namespace ActionQueue

/-- The predicate of the wait in `pop`. -/
def ready (q : ActionQueue α) : Bool := !(q.actions.isEmpty && q.isActive)

/-- `pop`, behind the wait. -/
def pop (q : ActionQueue α) : ActionQueue α × QueueRet α :=
  if !q.isActive && q.actions.isEmpty then (q, .empty)
  else
    match q.actions with
    | []             => (q, .undefined)
    | action :: rest => ({ q with actions := rest }, .action action)

/-- The operations as critical sections. -/
def monitor : Monitor (ActionQueue α) (QueueOp α) (QueueRet α) where
  guard := fun q op =>
    match op with
    | .pop => q.ready
    | _    => true
  body := fun q op =>
    match op with
    | .push action => ({ q with actions := q.actions ++ [action] }, .done)
    | .pop         => q.pop
    | .close       => ({ q with isActive := false }, .done)
    | .reopen      => ({ q with isActive := true }, .done)
  notify := fun op =>
    match op with
    | .push _ => .inside
    | .pop    => .never
    | .close  => .after
    | .reopen => .never

/-- A new queue is open. -/
def init : MonitorState (ActionQueue α) (QueueOp α) (QueueRet α) := Monitor.init { actions := [], isActive := true }

/-- The actions that have been pushed, in this order. -/
def pushed : List (MonitorReturn (ActionQueue α) (QueueOp α) (QueueRet α)) → List α
  | []                             => []
  | ⟨_, .push action, _, _⟩ :: log => pushed log ++ [action]
  | _ :: log                       => pushed log

/-- The actions that pops have returned, in this order. -/
def taken : List (MonitorReturn (ActionQueue α) (QueueOp α) (QueueRet α)) → List α
  | []                                  => []
  | ⟨_, .pop, _, .action action⟩ :: log => taken log ++ [action]
  | _ :: log                            => taken log

/-- What a pop may return: the oldest action, whether the queue is open or closed; nothing, if it is closed and
    empty. -/
def PopReturns (before : ActionQueue α) (ret : QueueRet α) : Prop :=
  (∃ action rest, before.actions = action :: rest ∧ ret = .action action) ∨
    (before.actions = [] ∧ before.isActive = false ∧ ret = .empty)

/-- **Nothing is lost or repeated.** -/
structure Faithful (s : MonitorState (ActionQueue α) (QueueOp α) (QueueRet α)) : Prop where
  /-- What was pushed has been taken, by one pop each and in this order, and the rest is queued. -/
  conserved : pushed s.log = taken s.log ++ s.shared.actions
  pops : ∀ r ∈ s.log, r.op = .pop → PopReturns r.before r.ret
  /-- A pop that enters while actions are queued takes the oldest, also after `close`. -/
  handedOut : ∀ t action rest, s.place t = .entering .pop → s.shared.actions = action :: rest →
    ∃ s', monitor.next s (.enter t) = some s' ∧ s'.log = ⟨t, .pop, s.shared, .action action⟩ :: s.log ∧
      s'.shared = { s.shared with actions := rest }
  /-- Who sleeps has nothing to do, or a notification is under way. -/
  awake : ∀ t, s.place t = .asleep .pop →
    (s.shared.actions = [] ∧ s.shared.isActive = true) ∨ ∃ u, s.place u = .notifying

/-! ## The operations -/

theorem ready_eq_false {q : ActionQueue α} : q.ready = false ↔ q.actions = [] ∧ q.isActive = true := by
  simp [ready]

/-- Behind the wait, the front is there or the queue is closed and empty. -/
theorem pop_cases {q : ActionQueue α} (h : q.ready = true) :
    (∃ action rest, q.actions = action :: rest ∧ q.pop = ({ q with actions := rest }, .action action)) ∨
      (q.actions = [] ∧ q.isActive = false ∧ q.pop = (q, .empty)) := by
  obtain ⟨actions, isActive⟩ := q
  cases actions with
  | nil =>
      cases isActive with
      | true => exact nomatch h
      | false => exact .inr ⟨rfl, rfl, rfl⟩
  | cons action rest =>
      refine .inl ⟨action, rest, rfl, ?_⟩
      simp [pop]

/-- `pop` and `reopen` give no sleeper a reason to wake up. -/
theorem notifies : (monitor : Monitor (ActionQueue α) (QueueOp α) (QueueRet α)).Notifies := by
  intro q op op' hnever hguard hfalse
  cases op with
  | push action => exact nomatch hfalse
  | close => exact nomatch hfalse
  | reopen => exact nomatch hfalse
  | pop =>
      cases op' with
      | push action => exact nomatch hnever
      | pop => exact nomatch hguard.symm.trans hfalse
      | close => exact nomatch hnever
      | reopen => exact ready_eq_false.mpr ⟨(ready_eq_false.mp hfalse).1, rfl⟩

/-- What every critical section keeps. -/
structure LogFaithful (q : ActionQueue α) (log : List (MonitorReturn (ActionQueue α) (QueueOp α) (QueueRet α))) :
    Prop where
  conserved : pushed log = taken log ++ q.actions
  pops : ∀ r ∈ log, r.op = .pop → PopReturns r.before r.ret

theorem LogFaithful.body {q : ActionQueue α} {log : List (MonitorReturn (ActionQueue α) (QueueOp α) (QueueRet α))}
    (h : LogFaithful q log) (t : Nat) (op : QueueOp α) (hguard : monitor.guard q op = true) :
    LogFaithful (monitor.body q op).1 (⟨t, op, q, (monitor.body q op).2⟩ :: log) := by
  have hother : ∀ op' ret, op' ≠ .pop → ∀ r ∈ (⟨t, op', q, ret⟩ : MonitorReturn _ _ _) :: log, r.op = .pop →
      PopReturns r.before r.ret := by
    intro op' ret hne r hr hop
    rcases List.mem_cons.mp hr with rfl | hr
    · exact absurd hop hne
    · exact h.pops r hr hop
  cases op with
  | push action =>
      refine ⟨?_, hother _ _ (by simp)⟩
      show pushed log ++ [action] = taken log ++ (q.actions ++ [action])
      rw [h.conserved, List.append_assoc]
  | close => exact ⟨h.conserved, hother _ _ (by simp)⟩
  | reopen => exact ⟨h.conserved, hother _ _ (by simp)⟩
  | pop =>
      rcases pop_cases hguard with ⟨action, rest, hactions, hpop⟩ | ⟨hempty, hclosed, hpop⟩
      · have hbody : monitor.body q .pop = _ := hpop
        rw [hbody]
        constructor
        · show pushed log = (taken log ++ [action]) ++ rest
          rw [h.conserved, hactions, List.append_assoc]
          rfl
        · intro r hr hop
          rcases List.mem_cons.mp hr with rfl | hr
          · exact .inl ⟨action, rest, hactions, rfl⟩
          · exact h.pops r hr hop
      · have hbody : monitor.body q .pop = _ := hpop
        rw [hbody]
        refine ⟨h.conserved, fun r hr hop => ?_⟩
        rcases List.mem_cons.mp hr with rfl | hr
        · exact .inr ⟨hempty, hclosed, rfl⟩
        · exact h.pops r hr hop

/-- A pop that enters while actions are queued. -/
theorem next_enter_pop {s : MonitorState (ActionQueue α) (QueueOp α) (QueueRet α)} {t : Nat} {action : α}
    {rest : List α} (ht : s.place t = .entering .pop) (hactions : s.shared.actions = action :: rest) :
    ∃ s', monitor.next s (.enter t) = some s' ∧ s'.log = ⟨t, .pop, s.shared, .action action⟩ :: s.log ∧
      s'.shared = { s.shared with actions := rest } := by
  have hready : monitor.guard s.shared .pop = true := by simp [monitor, ready, hactions]
  have hpop : monitor.body s.shared .pop = ({ s.shared with actions := rest }, .action action) := by
    simp [monitor, pop, hactions]
  refine ⟨monitor.run s t .pop, ?_, ?_, ?_⟩
  · simp [Monitor.next, ht, hready]
  · simp [Monitor.run, hpop]
  · simp [Monitor.run, hpop]

/-- **The action queue**, for any number of threads, any calls and any interleaving of their critical sections and
    wake-ups. -/
theorem action_queue_faithful (es : List (MonitorEvent (QueueOp α))) :
    Along monitor.next Faithful (init : MonitorState (ActionQueue α) (QueueOp α) (QueueRet α)) es := by
  refine along_of_invariant (I := fun s => LogFaithful s.shared s.log ∧ monitor.NoLostWakeUp s)
    (fun s e s' h hnext => ?_) (fun s h => ?_) ?_
  · have hlog : LogFaithful s'.shared s'.log := Monitor.data_next (fun t op q log hk => hk.body t op) h.1 hnext
    exact ⟨hlog, Monitor.noLostWakeUp_next notifies h.2 hnext⟩
  · exact {
      conserved := h.1.conserved
      pops := h.1.pops
      handedOut := fun t action rest => next_enter_pop
      awake := fun t ht => (h.2 t .pop ht).imp_left ready_eq_false.mp }
  · exact ⟨⟨rfl, fun r hr => (nomatch hr)⟩, fun t op ht => (nomatch ht)⟩

/-- Thread 1 pops from the empty queue and sleeps until thread 0 pushes. Thread 0 pushes twice more and closes; what is
    queued is still handed out, to threads 1 and 2, and then nothing is. -/
def sampleCalls : List (MonitorEvent (QueueOp Nat)) :=
  [.call 1 .pop, .enter 1, .call 0 (.push 7), .enter 0, .enter 1] ++
    [.call 0 (.push 8), .enter 0, .call 0 (.push 9), .enter 0, .call 0 .close, .enter 0] ++
    [.call 2 .pop, .enter 2, .notifyAll 0, .call 1 .pop, .enter 1, .call 2 .pop, .enter 2]

theorem action_queue_three_threads :
    ∃ s, sampleCalls.foldlM monitor.next init = some s ∧ Faithful s ∧
      pushed s.log = [7, 8, 9] ∧ taken s.log = [7, 8, 9] ∧ s.shared = ⟨[], false⟩ ∧
      s.log.map (fun r => (r.thread, r.ret)) = [(2, .empty), (1, .action 9), (2, .action 8), (0, .done), (0, .done),
        (0, .done), (1, .action 7), (0, .done)] :=
  ⟨_, rfl, (action_queue_faithful sampleCalls).of_foldlM rfl, rfl, rfl, rfl, rfl⟩

end ActionQueue

end Pnm.Threads

import Mathlib.Logic.Function.Basic
import Mathlib.Tactic.Common

/-!
# `Lib.Monitor` — operations under one mutex with one condition variable

A monitor is data that threads access only in critical sections of one mutex. An operation waits on the condition
variable until its guard holds and then runs its body; it notifies all waiters inside its critical section, after
it, or never. Critical sections are atomic steps. A thread whose guard does not hold sleeps; it enters again after a
notification, or without one.

Two rules: what every body keeps, of the data and of the returns so far, holds in every state (`Monitor.data_next`);
and if operations that never notify make no guard true, no thread sleeps while its guard holds, unless a
notification is under way (`Monitor.noLostWakeUp_next`).
-/

namespace Pnm.Lib

/-- When an operation notifies the waiters. -/
inductive Notify where
  | never
  | inside
  | after
deriving DecidableEq

structure Monitor (σ ι ρ : Type*) where
  guard : σ → ι → Bool
  body : σ → ι → σ × ρ
  notify : ι → Notify

/-- Where a thread is. -/
inductive MonitorPlace (ι : Type*) where
  | out
  | entering (op : ι)
  | asleep (op : ι)
  | notifying

/-- An operation that has run its body: by whom, on which data, with what result. -/
structure MonitorReturn (σ ι ρ : Type*) where
  thread : Nat
  op : ι
  before : σ
  ret : ρ

/-- The data, the threads and the returns so far, newest first. -/
structure MonitorState (σ ι ρ : Type*) where
  shared : σ
  place : Nat → MonitorPlace ι
  log : List (MonitorReturn σ ι ρ)

inductive MonitorEvent (ι : Type*) where
  | call (t : Nat) (op : ι)
  | enter (t : Nat)
  | notifyAll (t : Nat)
  | spurious (t : Nat)

namespace Monitor

variable {σ ι ρ : Type*}

/-- All that sleep try to enter again. -/
def wakeAll (place : Nat → MonitorPlace ι) (t : Nat) : MonitorPlace ι :=
  match place t with
  | .asleep op => .entering op
  | p          => p

/-- The threads after thread `t` has run its body. -/
def afterBody (place : Nat → MonitorPlace ι) (t : Nat) : Notify → Nat → MonitorPlace ι
  | .never  => Function.update place t .out
  | .inside => wakeAll (Function.update place t .out)
  | .after  => Function.update place t .notifying

variable (M : Monitor σ ι ρ)

/-- Thread `t` runs the body of `op`. -/
def run (s : MonitorState σ ι ρ) (t : Nat) (op : ι) : MonitorState σ ι ρ where
  shared := (M.body s.shared op).1
  place := afterBody s.place t (M.notify op)
  log := ⟨t, op, s.shared, (M.body s.shared op).2⟩ :: s.log

def next (s : MonitorState σ ι ρ) : MonitorEvent ι → Option (MonitorState σ ι ρ)
  | .call t op =>
      match s.place t with
      | .out => some { s with place := Function.update s.place t (.entering op) }
      | _    => none
  | .enter t =>
      match s.place t with
      | .entering op =>
          if M.guard s.shared op then some (M.run s t op)
          else some { s with place := Function.update s.place t (.asleep op) }
      | _ => none
  | .notifyAll t =>
      match s.place t with
      | .notifying => some { s with place := wakeAll (Function.update s.place t .out) }
      | _          => none
  | .spurious t =>
      match s.place t with
      | .asleep op => some { s with place := Function.update s.place t (.entering op) }
      | _          => none

/-- Nobody is in the monitor. -/
def init (shared : σ) : MonitorState σ ι ρ := { shared := shared, place := fun _ => .out, log := [] }

/-- A thread that sleeps has no reason to wake up, or is about to be woken. -/
def NoLostWakeUp (s : MonitorState σ ι ρ) : Prop :=
  ∀ t op, s.place t = .asleep op → M.guard s.shared op = false ∨ ∃ u, s.place u = .notifying

/-- Operations that never notify make no guard true. -/
def Notifies : Prop :=
  ∀ s op op', M.notify op' = .never → M.guard s op' = true → M.guard s op = false →
    M.guard (M.body s op').1 op = false

variable {M} {s s' : MonitorState σ ι ρ} {e : MonitorEvent ι}

theorem wakeAll_ne_asleep (place : Nat → MonitorPlace ι) (t : Nat) (op : ι) : wakeAll place t ≠ .asleep op := by
  rw [wakeAll]
  split
  · simp
  · rename_i hnot
    exact hnot op

/-- **What an event can do**: a thread moves that does not notify, a thread runs its body, or a thread notifies. -/
theorem next_cases (hnext : M.next s e = some s') :
    (∃ t p, s.place t ≠ .notifying ∧ (∀ op, p = .asleep op → M.guard s.shared op = false) ∧
      s' = { s with place := Function.update s.place t p }) ∨
    (∃ t op, s.place t = .entering op ∧ M.guard s.shared op = true ∧ s' = M.run s t op) ∨
    (∃ t, s' = { s with place := wakeAll (Function.update s.place t .out) }) := by
  cases e with
  | call t op =>
      simp only [next] at hnext
      split at hnext
      · rename_i ht
        exact .inl ⟨t, .entering op, by simp [ht], by simp, (Option.some.inj hnext).symm⟩
      · exact nomatch hnext
  | enter t =>
      simp only [next] at hnext
      split at hnext
      · rename_i op ht
        split at hnext
        · rename_i hguard
          exact .inr (.inl ⟨t, op, ht, hguard, (Option.some.inj hnext).symm⟩)
        · rename_i hguard
          refine .inl ⟨t, .asleep op, by simp [ht], fun op' heq => ?_, (Option.some.inj hnext).symm⟩
          obtain rfl := MonitorPlace.asleep.inj heq
          exact Bool.eq_false_iff.mpr hguard
      · exact nomatch hnext
  | notifyAll t =>
      simp only [next] at hnext
      split at hnext
      · exact .inr (.inr ⟨t, (Option.some.inj hnext).symm⟩)
      · exact nomatch hnext
  | spurious t =>
      simp only [next] at hnext
      split at hnext
      · rename_i op ht
        exact .inl ⟨t, .entering op, by simp [ht], by simp, (Option.some.inj hnext).symm⟩
      · exact nomatch hnext

/-- A thread that notifies is still there when another moves. -/
theorem notifying_of_update {place : Nat → MonitorPlace ι} {t : Nat} (hnot : place t ≠ .notifying) (p : MonitorPlace ι)
    (h : ∃ u, place u = .notifying) : ∃ u, Function.update place t p u = .notifying := by
  obtain ⟨u, hu⟩ := h
  have hne : u ≠ t := by
    rintro rfl
    exact hnot hu
  exact ⟨u, (Function.update_of_ne hne ..).trans hu⟩

/-- **No lost wake-up**: one event. -/
theorem noLostWakeUp_next (hM : M.Notifies) (h : M.NoLostWakeUp s) (hnext : M.next s e = some s') :
    M.NoLostWakeUp s' := by
  intro u op hu
  rcases next_cases hnext with ⟨t, p, hnot, hp, rfl⟩ | ⟨t, op', ht, hguard, rfl⟩ | ⟨t, rfl⟩
  · by_cases hut : u = t
    · subst hut
      have hself : Function.update s.place u p u = .asleep op := hu
      rw [Function.update_self] at hself
      exact .inl (hp op hself)
    · have hasleep : s.place u = .asleep op := (Function.update_of_ne hut ..).symm.trans hu
      exact (h u op hasleep).imp_right (notifying_of_update hnot p)
  · dsimp only [run] at hu ⊢
    cases hnotify : M.notify op' with
    | never =>
        -- the others that sleep: their guards were false and are so still
        rw [hnotify] at hu
        have hne : u ≠ t := by
          rintro rfl
          exact nomatch (Function.update_self ..).symm.trans hu
        have hasleep : s.place u = .asleep op := (Function.update_of_ne hne ..).symm.trans hu
        refine (h u op hasleep).imp (hM s.shared op op' hnotify hguard) (notifying_of_update ?_ .out)
        simp [ht]
    | inside =>
        rw [hnotify] at hu
        exact absurd hu (wakeAll_ne_asleep _ u op)
    | after => exact .inr ⟨t, Function.update_self ..⟩
  · exact absurd hu (wakeAll_ne_asleep _ u op)

/-- **The data and the returns**: one event. -/
theorem data_next {J : σ → List (MonitorReturn σ ι ρ) → Prop}
    (hJ : ∀ t op data log, J data log → M.guard data op = true →
      J (M.body data op).1 (⟨t, op, data, (M.body data op).2⟩ :: log))
    (h : J s.shared s.log) (hnext : M.next s e = some s') : J s'.shared s'.log := by
  rcases next_cases hnext with ⟨t, p, -, -, rfl⟩ | ⟨t, op, -, hguard, rfl⟩ | ⟨t, rfl⟩
  · exact h
  · exact hJ t op s.shared s.log h hguard
  · exact h

end Monitor

end Pnm.Lib

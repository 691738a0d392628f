import Pnm.Kernel.Sched
import Pnm.Lib.Runs
import Mathlib.Data.Fintype.Basic

/-!
# `Kernel.WaitQueue` — waiting for a compute unit

The model of the rest of `lib/pnm/sched.c`, with the retry timeout disabled: `pnm_sched_get_free_cunit` and
`pnm_sched_release_and_wakeup` as the steps that threads take between their accesses to what they share, that is to the
states of the units, to the wait flag and to the wait queue.

- A getter whose search fails clears the flag, and waits until it is set. It may sleep if the flag is 0 when it looks; a
  wake-up makes it look again.
- A releaser makes the unit idle, and then, if the return value is positive, sets the flag and wakes the queue. So the
  release of unit 0 wakes nobody.

A getter that clears the flag after a release has set it takes away the signal, from itself or from others that
wait; and a release that wakes nobody leaves those that wait for its unit without one. While neither happens
(`Signals`), whoever waits for a unit that is idle has a releaser that is on its way to set the flag (`Inv`), and no
wake-up is lost. Each step outside `Signals` strands a thread: with no further call, its wake-up is lost
(`signals_iff`).
-/

namespace Pnm.Kernel

open Pnm.Lib

/-- Some unit of the mask is idle. -/
def Sched.HasIdle (s : Sched) (reqMsk : Nat) : Prop :=
  ∃ cunit < s.nrCunits, reqMsk.testBit cunit = true ∧ s.busy cunit = false

instance (s : Sched) (reqMsk : Nat) : Decidable (s.HasIdle reqMsk) :=
  inferInstanceAs (Decidable (∃ cunit < s.nrCunits, _))

/-- An acquisition makes no unit idle. -/
theorem Sched.HasIdle.of_acquire {s : Sched} {cunit reqMsk : Nat} (h : (s.acquireFreeCunit cunit).HasIdle reqMsk) :
    s.HasIdle reqMsk := by
  obtain ⟨other, hlt, hbit, hidle⟩ := h
  refine ⟨other, hlt, hbit, ?_⟩
  have hne : other ≠ cunit := by
    rintro rfl
    exact nomatch (Function.update_self ..).symm.trans hidle
  exact (Function.update_of_ne hne ..).symm.trans hidle

/-- What a thread does next. -/
inductive Place where
  | user
  | searching (reqMsk : Nat)
  | clearing (reqMsk : Nat)
  | checking (reqMsk : Nat)
  | asleep (reqMsk : Nat)
  | releasing (cunit : Nat) (wakeup : Bool)
  | flagging
  | waking
deriving DecidableEq

namespace Place

/-- The mask that a thread waits for. -/
def waitsFor : Place → Option Nat
  | checking reqMsk => some reqMsk
  | asleep reqMsk   => some reqMsk
  | _               => none

/-- The mask that a thread is about to wait for. -/
def clears : Place → Option Nat
  | clearing reqMsk => some reqMsk
  | _               => none

/-- The thread is on its way to set the flag. -/
def signals (nrCunits : Nat) : Place → Bool
  | releasing cunit wakeup => wakeup && decide (0 < cunit ∧ cunit < nrCunits)
  | flagging               => true
  | _                      => false

/-- The unit that the thread is about to make idle with no signal to follow. -/
def silent (nrCunits : Nat) : Place → Option Nat
  | releasing cunit wakeup => if cunit < nrCunits ∧ ¬ (wakeup = true ∧ 0 < cunit) then some cunit else none
  | _                      => none

/-- `wake_up_interruptible`: a sleeper looks at the flag again. -/
def wakeUp : Place → Place
  | asleep reqMsk => checking reqMsk
  | p             => p

theorem wakeUp_waitsFor (p : Place) : p.wakeUp.waitsFor = p.waitsFor := by
  cases p <;> rfl

theorem wakeUp_signals (nrCunits : Nat) (p : Place) : p.wakeUp.signals nrCunits = p.signals nrCunits := by
  cases p <;> rfl

theorem wakeUp_eq_waking {p : Place} : p.wakeUp = waking ↔ p = waking := by
  cases p <;> simp [wakeUp]

/-- Who waits signals nothing. -/
theorem signals_of_waitsFor {nrCunits reqMsk : Nat} {p : Place} (h : p.waitsFor = some reqMsk) :
    p.signals nrCunits = false := by
  cases p <;> simp_all [waitsFor, signals]

end Place

/-- The scheduler and its `n` threads. -/
structure WaitQueue (n : Nat) where
  sched : Sched
  waitFlag : Bool
  place : Fin n → Place

/-- The steps of thread `t`. -/
inductive WaitEvent (n : Nat) where
  | get (t : Fin n) (reqMsk : Nat)
  | search (t : Fin n)
  | clear (t : Fin n)
  | check (t : Fin n)
  | interrupt (t : Fin n)
  | release (t : Fin n) (cunit : Nat) (wakeup : Bool)
  | makeIdle (t : Fin n)
  | setFlag (t : Fin n)
  | wakeUp (t : Fin n)

namespace WaitQueue

variable {n : Nat}

def init (n nrCunits : Nat) : WaitQueue n :=
  { sched := .init nrCunits, waitFlag := false, place := fun _ => .user }

/-- Thread `t` goes on. -/
def move (s : WaitQueue n) (t : Fin n) (p : Place) : WaitQueue n := { s with place := Function.update s.place t p }

/-- One step. -/
def next (s : WaitQueue n) : WaitEvent n → Option (WaitQueue n)
  | .get t reqMsk =>
      -- `pnm_sched_get_free_cunit`, with a valid mask that is not empty
      if s.place t = .user ∧ 0 < reqMsk ∧ reqMsk < s.sched.maxMskVal then some (s.move t (.searching reqMsk)) else none
  | .search t =>
      match s.place t with
      | .searching reqMsk =>
          match s.sched.findAcquireFreeCunit reqMsk with
          | some (_, sched) => some { s.move t .user with sched := sched }
          | none            => some (s.move t (.clearing reqMsk))
      | _ => none
  | .clear t =>
      match s.place t with
      | .clearing reqMsk => some { s.move t (.checking reqMsk) with waitFlag := false }
      | _                => none
  | .check t =>
      -- `wait_event_interruptible` is in the queue before it looks
      match s.place t with
      | .checking reqMsk => some (s.move t (if s.waitFlag then .searching reqMsk else .asleep reqMsk))
      | _                => none
  | .interrupt t =>
      -- a signal: the wait returns a negative number, and the getter -1
      if ((s.place t).waitsFor).isSome then some (s.move t .user) else none
  | .release t cunit wakeup =>
      -- with the wake-up: the ioctls, and the cleanup of `imdb_resource`; without: the cleanup of `sls_resource`
      if s.place t = .user ∧ cunit < 256 then some (s.move t (.releasing cunit wakeup)) else none
  | .makeIdle t =>
      match s.place t with
      | .releasing cunit wakeup =>
          let ret := s.sched.releaseCunit cunit
          some { s.move t (if wakeup ∧ 0 < ret.1 then .flagging else .user) with sched := ret.2 }
      | _ => none
  | .setFlag t => if s.place t = .flagging then some { s.move t .waking with waitFlag := true } else none
  | .wakeUp t =>
      if s.place t = .waking then
        some { s with place := Function.update (fun u => (s.place u).wakeUp) t .user }
      else none

/-- Thread `t` is on its way to set the flag. -/
def Signalling (s : WaitQueue n) (t : Fin n) : Prop := (s.place t).signals s.sched.nrCunits = true

instance (s : WaitQueue n) (t : Fin n) : Decidable (s.Signalling t) := inferInstanceAs (Decidable (_ = _))

/-- A thread sleeps with the flag 0 while a unit of its mask is idle, and nothing is under way that could wake it. -/
def LostWakeUp (s : WaitQueue n) : Prop :=
  s.waitFlag = false ∧ (∃ t reqMsk, s.place t = .asleep reqMsk ∧ s.sched.HasIdle reqMsk) ∧
    ∀ t, ¬ s.Signalling t ∧ s.place t ≠ .waking

/-- If a unit of the mask is idle, a releaser is on its way to set the flag. -/
def Signalled (s : WaitQueue n) (reqMsk : Nat) : Prop := s.sched.HasIdle reqMsk → ∃ t, s.Signalling t

instance (s : WaitQueue n) (reqMsk : Nat) : Decidable (s.Signalled reqMsk) := inferInstanceAs (Decidable (_ → _))

/-- No unit becomes idle without a signal while a thread waits for it, and the flag is not cleared over the head of a
    thread that waits, or begins to wait, for a unit that is idle, unless the flag is about to be set again. -/
def Signals (s : WaitQueue n) : WaitEvent n → Prop
  | .makeIdle t =>
      ∀ cunit ∈ (s.place t).silent s.sched.nrCunits, s.waitFlag = false →
        ∀ u, ∀ reqMsk ∈ (s.place u).waitsFor, reqMsk.testBit cunit = true → ∃ v, s.Signalling v
  | .clear t =>
      (∀ reqMsk ∈ (s.place t).clears, s.Signalled reqMsk) ∧
        ∀ u, ∀ reqMsk ∈ (s.place u).waitsFor, s.Signalled reqMsk
  | _ => True

instance (s : WaitQueue n) : (e : WaitEvent n) → Decidable (s.Signals e)
  | .makeIdle _                                     => inferInstanceAs (Decidable (∀ cunit ∈ _, _))
  | .clear _                                        => inferInstanceAs (Decidable (_ ∧ _))
  | .get _ _ | .search _ | .check _ | .interrupt _  => isTrue trivial
  | .release _ _ _ | .setFlag _ | .wakeUp _         => isTrue trivial

/-! ## The invariant -/

/-- While the flag is 0, every thread that waits is signalled. -/
structure Inv (s : WaitQueue n) : Prop where
  signalled : s.waitFlag = false → ∀ t reqMsk, (s.place t).waitsFor = some reqMsk → s.Signalled reqMsk

theorem inv_init (nrCunits : Nat) : Inv (init n nrCunits) := ⟨fun _ _ _ h => (nomatch h)⟩

theorem Inv.not_lostWakeUp {s : WaitQueue n} (h : Inv s) : ¬ s.LostWakeUp := by
  rintro ⟨hflag, ⟨t, reqMsk, hasleep, hidle⟩, hnone⟩
  obtain ⟨u, hu⟩ := h.signalled hflag t reqMsk (by rw [hasleep]; rfl) hidle
  exact (hnone u).1 hu

variable {s : WaitQueue n} {t : Fin n} {p : Place}

theorem move_place_self : (s.move t p).place t = p := Function.update_self ..

theorem move_place_of_ne {u : Fin n} (h : u ≠ t) : (s.move t p).place u = s.place u := Function.update_of_ne h ..

/-- A releaser that is not moved stays. -/
theorem Signalled.move {reqMsk : Nat} (h : s.Signalled reqMsk) (ht : ¬ s.Signalling t) :
    (s.move t p).Signalled reqMsk := by
  intro hidle
  obtain ⟨u, hu⟩ := h hidle
  have hne : u ≠ t := by
    rintro rfl
    exact ht hu
  refine ⟨u, ?_⟩
  rw [Signalling, move_place_of_ne hne]
  exact hu

/-- A thread that signals nothing and waits for nothing new may move. -/
theorem Inv.move (h : Inv s) (ht : ¬ s.Signalling t)
    (hwaits : ∀ reqMsk, p.waitsFor = some reqMsk → (s.place t).waitsFor = some reqMsk) : Inv (s.move t p) := by
  refine ⟨fun hflag u reqMsk hu => ?_⟩
  refine Signalled.move (h.signalled hflag u reqMsk ?_) ht
  by_cases hut : u = t
  · subst hut
    rw [move_place_self] at hu
    exact hwaits reqMsk hu
  · rwa [move_place_of_ne hut] at hu

theorem Inv.acquire (h : Inv s) (cunit : Nat) : Inv { s with sched := s.sched.acquireFreeCunit cunit } where
  signalled := fun hflag t reqMsk ht hidle => h.signalled hflag t reqMsk ht hidle.of_acquire

/-- The flag is cleared. -/
theorem Inv.clear {reqMsk : Nat} (ht : s.place t = .clearing reqMsk) (hsignals : s.Signals (.clear t)) :
    Inv { s.move t (.checking reqMsk) with waitFlag := false } := by
  have hnot : ¬ s.Signalling t := by simp [Signalling, ht, Place.signals]
  refine ⟨fun _ u other hu => ?_⟩
  change ((s.move t (.checking reqMsk)).place u).waitsFor = some other at hu
  suffices hs : s.Signalled other from hs.move hnot
  by_cases hut : u = t
  · subst hut
    rw [move_place_self] at hu
    obtain rfl := Option.some.inj hu
    exact hsignals.1 reqMsk (by rw [ht]; rfl)
  · rw [move_place_of_ne hut] at hu
    exact hsignals.2 u other hu

/-- A release with no signal to follow. -/
theorem silent_of_not_signal {cunit : Nat} {wakeup : Bool} (ht : s.place t = .releasing cunit wakeup)
    (hlt : cunit < s.sched.nrCunits) (hsignal : ¬ (wakeup = true ∧ 0 < cunit)) :
    (s.place t).silent s.sched.nrCunits = some cunit := by
  rw [ht, Place.silent, if_pos ⟨hlt, hsignal⟩]

theorem not_signalling_of_silent {cunit : Nat} {wakeup : Bool} (ht : s.place t = .releasing cunit wakeup)
    (hsignal : ¬ (wakeup = true ∧ 0 < cunit)) : ¬ s.Signalling t := by
  rw [Signalling, ht, Place.signals, Bool.and_eq_true, decide_eq_true_eq]
  exact fun h => hsignal ⟨h.1, h.2.1⟩

/-- A unit becomes idle. -/
theorem Inv.makeIdle (h : Inv s) {cunit : Nat} {wakeup : Bool} (ht : s.place t = .releasing cunit wakeup)
    (hsignals : s.Signals (.makeIdle t)) :
    Inv { s.move t (if wakeup ∧ 0 < (s.sched.releaseCunit cunit).1 then .flagging else .user) with
      sched := (s.sched.releaseCunit cunit).2 } := by
  by_cases hlt : cunit < s.sched.nrCunits
  · rw [Sched.releaseCunit_of_lt hlt]
    by_cases hsignal : wakeup = true ∧ 0 < cunit
    · rw [if_pos (by simpa using hsignal)]
      refine ⟨fun _ _ _ _ _ => ⟨t, ?_⟩⟩
      change ((s.move t .flagging).place t).signals _ = true
      rw [move_place_self, Place.signals]
    · rw [if_neg (by simpa using hsignal)]
      have hnot : ¬ s.Signalling t := not_signalling_of_silent ht hsignal
      refine ⟨fun hflag u reqMsk hu hidle => ?_⟩
      change ((s.move t .user).place u).waitsFor = some reqMsk at hu
      have hut : u ≠ t := by
        rintro rfl
        rw [move_place_self] at hu
        exact nomatch hu
      rw [move_place_of_ne hut] at hu
      -- the unit is this one, or it was idle before
      obtain ⟨v, hv⟩ : ∃ v, s.Signalling v := by
        obtain ⟨other, hother, hbit, hfree⟩ := hidle
        by_cases hoc : other = cunit
        · exact hsignals cunit (silent_of_not_signal ht hlt hsignal) hflag u reqMsk hu (hoc ▸ hbit)
        · exact h.signalled hflag u reqMsk hu ⟨other, hother, hbit, (Function.update_of_ne hoc ..).symm.trans hfree⟩
      have hvt : v ≠ t := by
        rintro rfl
        exact hnot hv
      refine ⟨v, ?_⟩
      change ((s.move t .user).place v).signals _ = true
      rw [move_place_of_ne hvt]
      exact hv
  · -- out of range: nothing changes
    rw [Sched.releaseCunit_of_le (Nat.le_of_not_lt hlt), if_neg (by simp)]
    exact h.move (by simp [Signalling, ht, Place.signals, hlt]) (by simp [Place.waitsFor])

theorem inv_setFlag : Inv { s.move t .waking with waitFlag := true } := ⟨fun hflag => (nomatch hflag)⟩

/-- The sleepers are awake: they wait for what they waited for. -/
theorem Inv.awake (h : Inv s) : Inv { s with place := fun u => (s.place u).wakeUp } := by
  refine ⟨fun hflag u reqMsk hu hidle => ?_⟩
  rw [Place.wakeUp_waitsFor] at hu
  obtain ⟨v, hv⟩ := h.signalled hflag u reqMsk hu hidle
  exact ⟨v, (Place.wakeUp_signals ..).trans hv⟩

/-- **One step.** -/
theorem Inv.next {s' : WaitQueue n} {e : WaitEvent n} (h : Inv s) (hnext : s.next e = some s')
    (hsignals : s.Signals e) : Inv s' := by
  cases e with
  | get t reqMsk =>
      obtain ⟨hguard, rfl⟩ := of_guarded hnext
      exact h.move (by simp [Signalling, hguard.1, Place.signals]) (by simp [Place.waitsFor])
  | search t =>
      rw [WaitQueue.next] at hnext
      split at hnext
      · rename_i reqMsk ht
        have hmove : ∀ p, p.waitsFor = none → Inv (s.move t p) :=
          fun p hwaits => h.move (by simp [Signalling, ht, Place.signals]) (by simp [hwaits])
        split at hnext
        · rename_i cunit sched hacquire
          obtain rfl := Option.some.inj hnext
          obtain ⟨-, -, -, rfl⟩ := Sched.findAcquireFreeCunit_eq_some hacquire
          exact (hmove .user rfl).acquire cunit
        · obtain rfl := Option.some.inj hnext
          exact hmove (.clearing reqMsk) rfl
      · exact nomatch hnext
  | clear t =>
      rw [WaitQueue.next] at hnext
      split at hnext
      · rename_i reqMsk ht
        obtain rfl := Option.some.inj hnext
        exact Inv.clear ht hsignals
      · exact nomatch hnext
  | check t =>
      rw [WaitQueue.next] at hnext
      split at hnext
      · rename_i reqMsk ht
        obtain rfl := Option.some.inj hnext
        refine h.move (by simp [Signalling, ht, Place.signals]) ?_
        split <;> simp [ht, Place.waitsFor]
      · exact nomatch hnext
  | interrupt t =>
      obtain ⟨hwaits, rfl⟩ := of_guarded hnext
      obtain ⟨reqMsk, hreq⟩ := Option.isSome_iff_exists.mp hwaits
      exact h.move (by simp [Signalling, Place.signals_of_waitsFor hreq]) (by simp [Place.waitsFor])
  | release t cunit wakeup =>
      obtain ⟨hguard, rfl⟩ := of_guarded hnext
      exact h.move (by simp [Signalling, hguard.1, Place.signals]) (by simp [Place.waitsFor])
  | makeIdle t =>
      rw [WaitQueue.next] at hnext
      split at hnext
      · rename_i cunit wakeup ht
        obtain rfl := Option.some.inj hnext
        exact h.makeIdle ht hsignals
      · exact nomatch hnext
  | setFlag t =>
      obtain ⟨-, rfl⟩ := of_guarded hnext
      exact inv_setFlag
  | wakeUp t =>
      obtain ⟨ht, rfl⟩ := of_guarded hnext
      exact h.awake.move (by simp [Signalling, ht, Place.wakeUp, Place.signals]) (by simp [Place.waitsFor])

/-- **No wake-up is lost**, for any number of units and threads and any interleaving in which no unit becomes idle
    without a signal while a thread waits for it, and no signal is cleared. -/
theorem no_lost_wake_up (n nrCunits : Nat) (es : List (WaitEvent n)) (h : Allowed next Signals (init n nrCunits) es) :
    Along next (fun s => ¬ LostWakeUp s) (init n nrCunits) es :=
  h.along (fun _ _ _ => Inv.next) (fun _ => Inv.not_lostWakeUp) (inv_init nrCunits)

/-- Thread 0 has unit 0 and gives it back with nobody waiting; then it has unit 1, and thread 1 sleeps until it is
    released. -/
theorem no_lost_wake_up_two_threads : Along next (fun s => ¬ LostWakeUp s) (init 2 2)
    [.get 0 1, .search 0, .release 0 0 false, .makeIdle 0, .get 0 2, .search 0, .get 1 2, .search 1, .clear 1, .check 1,
      .release 0 1 true, .makeIdle 0, .setFlag 0, .wakeUp 0, .check 1, .search 1] :=
  no_lost_wake_up 2 2 _ (by decide)

/-- Unit 0 is released while thread 1 sleeps; and unit 1 is released after the search of thread 1 has failed and
    before it clears the flag. -/
theorem wake_up_lost :
    (¬ Along next (fun s => ¬ LostWakeUp s) (init 2 2)
      [.get 0 1, .search 0, .get 1 1, .search 1, .clear 1, .check 1, .release 0 0 true, .makeIdle 0]) ∧
    ¬ Along next (fun s => ¬ LostWakeUp s) (init 2 2)
      [.get 0 2, .search 0, .get 1 2, .search 1, .release 0 1 true, .makeIdle 0, .setFlag 0, .wakeUp 0, .clear 1,
        .check 1] := by
  refine ⟨fun h => h.of_foldlM rfl ⟨rfl, ⟨1, 1, rfl, by decide⟩, by decide⟩,
    fun h => h.of_foldlM rfl ⟨rfl, ⟨1, 2, rfl, by decide⟩, by decide⟩⟩

/-! ## The converse -/

/-- Thread `t` waits with the flag 0 for a unit that is idle, and nobody is on the way to set the flag. -/
structure Stranded (s : WaitQueue n) (t : Fin n) : Prop where
  flag : s.waitFlag = false
  waits : ∃ reqMsk, (s.place t).waitsFor = some reqMsk ∧ s.sched.HasIdle reqMsk
  alone : ∀ u, ¬ s.Signalling u

/-- Nobody signals after a thread has moved to where it does not. -/
theorem not_signals_move (hnone : ∀ u, ¬ s.Signalling u) (hp : p.signals s.sched.nrCunits = false) (u : Fin n) :
    ¬ ((s.move t p).place u).signals s.sched.nrCunits = true := by
  by_cases hut : u = t
  · rw [hut, move_place_self, hp]
    exact Bool.false_ne_true
  · rw [move_place_of_ne hut]
    exact hnone u

/-- A wake-up that is still under way does not help. -/
theorem Stranded.wakeUp (h : Stranded s t) {u : Fin n} (hu : s.place u = .waking) :
    Stranded { s with place := Function.update (fun v => (s.place v).wakeUp) u .user } t := by
  obtain ⟨reqMsk, hwaits, hidle⟩ := h.waits
  have htu : t ≠ u := by
    rintro rfl
    rw [hu] at hwaits
    exact nomatch hwaits
  refine ⟨h.flag, ⟨reqMsk, ?_, hidle⟩, fun v => ?_⟩
  · dsimp only
    rw [Function.update_of_ne htu, Place.wakeUp_waitsFor]
    exact hwaits
  · rw [Signalling]
    dsimp only
    by_cases hvu : v = u
    · rw [hvu, Function.update_self]
      exact Bool.false_ne_true
    · rw [Function.update_of_ne hvu, Place.wakeUp_signals]
      exact h.alone v

/-- A thread that is stranded falls asleep, and then its wake-up is lost. -/
theorem Stranded.asleep (h : Stranded s t) (hwaking : ∀ u, s.place u ≠ .waking) :
    CanBreak next Signals (fun s => ¬ LostWakeUp s) s := by
  obtain ⟨reqMsk, hwaits, hidle⟩ := h.waits
  cases hplace : s.place t with
  | asleep mask =>
      rw [hplace] at hwaits
      obtain rfl := Option.some.inj hwaits
      exact .of_not (not_not.mpr ⟨h.flag, ⟨t, mask, hplace, hidle⟩, fun u => ⟨h.alone u, hwaking u⟩⟩)
  | checking mask =>
      rw [hplace] at hwaits
      obtain rfl := Option.some.inj hwaits
      have hcheck : s.next (.check t) = some (s.move t (.asleep mask)) := by
        simp [WaitQueue.next, hplace, h.flag]
      refine .of_next hcheck (fun _ => trivial) (.of_not (not_not.mpr ⟨h.flag, ?_, fun u => ?_⟩))
      · exact ⟨t, mask, move_place_self, hidle⟩
      · refine ⟨not_signals_move h.alone rfl u, ?_⟩
        by_cases hut : u = t
        · simp [hut, move_place_self]
        · rw [move_place_of_ne hut]
          exact hwaking u
  | _ => simp [hplace, Place.waitsFor] at hwaits

/-- The wake-ups that are under way come to an end. -/
theorem Stranded.lost (h : Stranded s t) : CanBreak next Signals (fun s => ¬ LostWakeUp s) s := by
  -- over the threads that may still be about to wake the queue
  suffices hall : ∀ (l : List (Fin n)) (s : WaitQueue n), Stranded s t → (∀ u, s.place u = .waking → u ∈ l) →
      CanBreak next Signals (fun s => ¬ LostWakeUp s) s from
    hall (List.finRange n) s h fun u _ => List.mem_finRange u
  intro l
  induction l with
  | nil => exact fun s h hwaking => h.asleep fun u hu => absurd (hwaking u hu) List.not_mem_nil
  | cons u l ih =>
      intro s h hwaking
      by_cases hu : s.place u = .waking
      · refine .of_next (e := .wakeUp u) (if_pos hu) (fun _ => trivial) (ih _ (h.wakeUp hu) fun v hv => ?_)
        dsimp only at hv
        by_cases hvu : v = u
        · rw [hvu, Function.update_self] at hv
          exact nomatch hv
        · rw [Function.update_of_ne hvu, Place.wakeUp_eq_waking] at hv
          exact (List.mem_cons.mp (hwaking v hv)).resolve_left hvu
      · refine ih s h fun v hv => (List.mem_cons.mp (hwaking v hv)).resolve_left ?_
        rintro rfl
        exact hu hv

/-- A step outside the condition strands a thread. -/
theorem stranded_of_not_signals {s' : WaitQueue n} {e : WaitEvent n} (hnext : s.next e = some s')
    (hnot : ¬ s.Signals e) : ∃ t, Stranded s' t := by
  cases e with
  | makeIdle t =>
      rw [WaitQueue.next] at hnext
      split at hnext
      · rename_i cunit wakeup ht
        obtain rfl := Option.some.inj hnext
        rw [Signals] at hnot
        push Not at hnot
        obtain ⟨other, hsilent, hflag, u, reqMsk, hu, hbit, hnone⟩ := hnot
        rw [ht, Place.silent] at hsilent
        obtain ⟨⟨hlt, hsignal⟩, rfl⟩ := of_guarded hsilent
        have hut : u ≠ t := by
          rintro rfl
          rw [ht] at hu
          exact nomatch hu
        rw [Sched.releaseCunit_of_lt hlt, if_neg (by simpa using hsignal)]
        refine ⟨u, hflag, ⟨reqMsk, ?_, cunit, hlt, hbit, Function.update_self ..⟩, not_signals_move hnone rfl⟩
        change ((s.move t .user).place u).waitsFor = some reqMsk
        rw [move_place_of_ne hut]
        exact hu
      · exact nomatch hnext
  | clear t =>
      rw [WaitQueue.next] at hnext
      split at hnext
      · rename_i reqMsk ht
        obtain rfl := Option.some.inj hnext
        -- the one that is not signalled waits now
        obtain ⟨u, mask, hwaits, hnone⟩ : ∃ u mask, ((s.move t (.checking reqMsk)).place u).waitsFor = some mask ∧
            ¬ s.Signalled mask := by
          rw [Signals, not_and_or] at hnot
          push Not at hnot
          rcases hnot with ⟨mask, hmask, hnone⟩ | ⟨u, mask, hmask, hnone⟩
          · rw [ht] at hmask
            exact ⟨t, mask, by rw [move_place_self]; exact hmask, hnone⟩
          · have hut : u ≠ t := by
              rintro rfl
              rw [ht] at hmask
              exact nomatch hmask
            exact ⟨u, mask, by rw [move_place_of_ne hut]; exact hmask, hnone⟩
        rw [Signalled] at hnone
        push Not at hnone
        exact ⟨u, rfl, ⟨mask, hwaits, hnone.1⟩, not_signals_move hnone.2 rfl⟩
      · exact nomatch hnext
  | _ => exact absurd trivial hnot

/-- **The condition is exact**: a sequence of steps meets it exactly if nowhere on its way steps that meet it could lead
    to a lost wake-up. -/
theorem signals_iff (n nrCunits : Nat) (es : List (WaitEvent n)) :
    Allowed next Signals (init n nrCunits) es ↔
      Along next (fun s => ∀ es', Allowed next Signals s es' → Along next (fun s => ¬ LostWakeUp s) s es')
        (init n nrCunits) es := by
  refine allowed_iff_along_safe (fun _ _ _ => Inv.next) (fun _ => Inv.not_lostWakeUp) (fun s e t _ hnext hnot => ?_)
    (inv_init nrCunits)
  obtain ⟨u, hstranded⟩ := stranded_of_not_signals hnext hnot
  exact hstranded.lost

end WaitQueue

end Pnm.Kernel

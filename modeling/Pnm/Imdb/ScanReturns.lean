import Pnm.Imdb.ScanSystem

/-!
# `Imdb.ScanReturns` — concurrent scans return, and with the right results

The handshake brings a call to its end if host and worker have their turns (`Imdb.Progress`); between two steps of the
handshake the worker counts down the rows that are left (`rest`). So every call returns on every fair schedule of the
whole system, and `concurrent_scans` puts this together with the invariant of `Imdb.ScanSystem`.
-/

namespace Pnm.Imdb

open Pnm.Lib

/-- Steps that a worker has left before its next step of the handshake, with `n` rows to scan, at most. -/
def WorkerPart.rest (n : Nat) : WorkerPlace → WorkerPart → Nat
  | .busying, .none         => 1
  | .scanning, .scan _ i _ _ => 1 + (n - i)
  | .scanning, _             => n + 2
  | .publishing, .none      => 1
  | _, _                    => 0

theorem WorkerPart.rest_le (n : Nat) (w : WorkerPlace) (part : WorkerPart) : part.rest n w ≤ n + 2 := by
  unfold WorkerPart.rest
  split <;> omega

/-- Only a worker whose turn it is has steps of its own. -/
theorem rest_of_turn {h : Nat} {d : DeviceThread} {place : HostPlace} (hagree : Agree h d place)
    (hturn : turn d place = .host) (n : Nat) (part : WorkerPart) : part.rest n d.worker = 0 := by
  have hplace : d.worker = .busying ∨ d.worker = .scanning ∨ d.worker = .publishing → False := by
    intro hw
    have hidle : ¬ Idle d := by
      rintro ⟨-, -, hidle⟩
      rcases hw with hw | hw | hw <;> simp [hw] at hidle
    have hdisabled : d.worker ≠ .disabled := by
      rcases hw with hw | hw | hw <;> simp [hw]
    cases place with
    | user | thrown t => exact hagree
    | enabling t op | spawning t op | releasing t => exact hdisabled hagree.1
    | writing t op writes | marking t op | loading t op | starting t op control | reading t op | stopping t =>
        exact hidle hagree.1
    | waiting t op =>
        have hstatus := turn_waiting_eq_host.mp hturn
        cases hagree.2 with
        | before _ hbusy | clearing _ hbusy | publishing _ hbusy => exact hstatus hbusy
        | done hworker => rcases hw with hw | hw | hw <;> simp [hw] at hworker
    | joining t =>
        rcases hagree.2.2.1 with hw' | hw' | hw' <;> simp [hw'] at hw
  unfold WorkerPart.rest
  split
  · rename_i hw
    exact (hplace (.inl hw)).elim
  · rename_i hw
    exact (hplace (.inr (.inl hw))).elim
  · rename_i hw _
    exact (hplace (.inr (.inl hw))).elim
  · rename_i hw
    exact (hplace (.inr (.inr hw))).elim
  · rfl

namespace ScanState

variable {s : ScanState}

open Classical in
/-- An event that is not possible, or that the users do not cause, does nothing. -/
noncomputable def attempt (s : ScanState) (e : ScanEvent) : ScanState :=
  if s.Promised e then (s.next e).getD s else s

/-- The rows of the last call on a device thread. -/
def rows (s : ScanState) (t : Nat) : Nat :=
  match lastCall (s.shake.threads t).log with
  | some op => op.elementsCount.toNat
  | none    => 0

/-- A bound for the steps of host and worker until the call returns. -/
def distance (h t : Nat) (s : ScanState) : Nat :=
  (s.rows t + 3) * Imdb.distance (s.shake.threads t) (s.shake.hosts h) +
    (s.parts t).rest (s.rows t) (s.shake.threads t).worker

/-- Whose turn it is in a call. -/
def turn (h t : Nat) (s : ScanState) : Party := Imdb.turn (s.shake.threads t) (s.shake.hosts h)

/-- The events of a party. -/
def helps (h t : Nat) : Party → ScanEvent → Prop
  | .host, e   => e = .host h
  | .worker, e => ∃ startTime doneTime, e = .worker t startTime doneTime

/-- Host `h` is in a call on device thread `t`. -/
def InCall (h t : Nat) (s : ScanState) : Prop := s.Inv ∧ (s.shake.hosts h).thread = some t

/-- After an event the call has returned, or is closer to its end, or nothing has changed that counts and the event
    was not of the party that can go on. -/
def Advances (h t : Nat) (s : ScanState) (e : ScanEvent) (s' : ScanState) : Prop :=
  s'.shake.hosts h = .user ∨ (InCall h t s' ∧ (distance h t s' < distance h t s ∨
    (distance h t s' = distance h t s ∧ turn h t s' = turn h t s ∧ ¬ helps h t (turn h t s) e)))

section Advance

variable {h t : Nat} {s' : ScanState} {e : ScanEvent}

theorem InCall.agree (hcall : InCall h t s) : Agree h (s.shake.threads t) (s.shake.hosts h) :=
  (hcall.1.shake.locked t h (hcall.1.shake.owned h t hcall.2)).2

/-- What does not touch the call leaves it where it is. -/
theorem InCall.advances_frame (hcall : InCall h t s) (hinv : s'.Inv) (hhost : s'.shake.hosts h = s.shake.hosts h)
    (hthread : s'.shake.threads t = s.shake.threads t) (hpart : s'.parts t = s.parts t)
    (hno : ∀ party, ¬ helps h t party e) : Advances h t s e s' := by
  refine .inr ⟨⟨hinv, ?_⟩, .inr ⟨?_, ?_, hno _⟩⟩
  · rw [hhost]
    exact hcall.2
  · unfold distance rows
    rw [hhost, hthread, hpart]
  · unfold turn
    rw [hhost, hthread]

/-- A step of the handshake: the steps of the worker in between are paid for by the distance. -/
theorem advances_of_shake (hinv : s'.Inv) {e' : HandshakeEvent}
    (hadv : HandshakeState.Advances h t s.shake e' s'.shake) (hrows : s'.rows t = s.rows t)
    (hhelps : helps h t (turn h t s) e → HandshakeState.helps h t (turn h t s) e')
    (hrest : ¬ HandshakeState.helps h t (turn h t s) e' →
      (s'.parts t).rest (s.rows t) (s'.shake.threads t).worker
        ≤ (s.parts t).rest (s.rows t) (s.shake.threads t).worker ∨ turn h t s = .host) : Advances h t s e s' := by
  rcases hadv with huser | ⟨⟨-, hthread⟩, hlt | ⟨hsame, hturn, hno⟩⟩
  · exact .inl huser
  · refine .inr ⟨⟨hinv, hthread⟩, .inl ?_⟩
    unfold distance
    rw [hrows]
    have hle := WorkerPart.rest_le (s.rows t) (s'.shake.threads t).worker (s'.parts t)
    have hmul := Nat.mul_le_mul_left (s.rows t + 3) hlt
    rw [Nat.mul_succ] at hmul
    omega
  · have hcall' : InCall h t s' := ⟨hinv, hthread⟩
    have hle : (s'.parts t).rest (s.rows t) (s'.shake.threads t).worker
        ≤ (s.parts t).rest (s.rows t) (s.shake.threads t).worker := by
      rcases hrest hno with hle | hhost
      · exact hle
      · rw [rest_of_turn hcall'.agree (hturn.trans hhost)]
        exact Nat.zero_le _
    refine .inr ⟨hcall', ?_⟩
    unfold distance
    rw [hrows, hsame]
    rcases Nat.lt_or_eq_of_le hle with hlt | heq
    · exact .inl (Nat.add_lt_add_left hlt _)
    · exact .inr ⟨by rw [heq], hturn, fun hhelp => hno (hhelps hhelp)⟩

/-- A step of the worker between two steps of the handshake. -/
theorem InCall.advances_part (hcall : InCall h t s) (hinv : s'.Inv) (hshake : s'.shake = s.shake)
    (hlt : (s'.parts t).rest (s.rows t) (s.shake.threads t).worker
      < (s.parts t).rest (s.rows t) (s.shake.threads t).worker) : Advances h t s e s' := by
  refine .inr ⟨⟨hinv, ?_⟩, .inl ?_⟩
  · rw [hshake]
    exact hcall.2
  · have hrows : s'.rows t = s.rows t := by
      unfold rows
      rw [hshake]
    unfold distance
    rw [hrows, hshake]
    exact Nat.add_lt_add_left hlt _

theorem helps_host {party : Party} (hhelp : helps h t party (.host h)) : HandshakeState.helps h t party (.host h) := by
  cases party with
  | host => rfl
  | worker =>
      obtain ⟨_, _, heq⟩ := hhelp
      cases heq

/-- An event of the host. -/
theorem InCall.host (hcall : InCall h t s) : Advances h t s (.host h) ((s.next (.host h)).getD s) := by
  have hshake : HandshakeState.InCall h t s.shake := ⟨hcall.1.shake, hcall.2⟩
  have hadv := hshake.attempt_host
  unfold HandshakeState.attempt at hadv
  cases hnext : s.shake.next (.host h) with
  | none =>
      have hsame : s.next (.host h) = none := by rw [ScanState.next, hnext, Option.map_none]
      rw [hnext, Option.getD_none] at hadv
      rw [hsame, Option.getD_none]
      exact advances_of_shake hcall.1 hadv rfl helps_host fun _ => .inl (Nat.le_refl _)
  | some shake =>
      have hsome : s.next (.host h) = some { s with shake } := by rw [ScanState.next, hnext, Option.map_some]
      rw [hnext, Option.getD_some] at hadv
      rw [hsome, Option.getD_some]
      have hinv := hcall.1.hostNext hnext
      rw [HandshakeState.next, hcall.2, Option.bind_some] at hnext
      obtain ⟨⟨place, d⟩, hstep, rfl⟩ := Option.map_eq_some_iff.mp hnext
      obtain ⟨-, hlast, -, hworker⟩ := hostStep_frame hcall.agree hstep
      refine advances_of_shake hinv hadv ?_ helps_host fun _ => .inl ?_
      · unfold rows
        dsimp only
        rw [Function.update_self, hlast]
      · dsimp only
        rw [Function.update_self]
        rcases hworker with hw | ⟨-, hnew⟩ | ⟨-, hnew⟩
        · rw [hw]
        · rw [hnew]
          exact Nat.zero_le _
        · rw [hnew]
          exact Nat.zero_le _

/-- A step of the handshake by the worker. -/
theorem InCall.workerShake (hcall : InCall h t s) {result : ScanResult} {startTime doneTime : BitVec 32}
    (hinv : ∀ s', s.workerShake t result = some s' → s'.Inv) :
    Advances h t s (.worker t startTime doneTime) ((s.workerShake t result).getD s) := by
  have hshake : HandshakeState.InCall h t s.shake := ⟨hcall.1.shake, hcall.2⟩
  have hadv := hshake.attempt_worker result
  -- an event of the worker that does not help finds the host at its turn
  have hturn : ¬ HandshakeState.helps h t (turn h t s) (.worker t result) → turn h t s = .host := by
    intro hno
    cases hparty : turn h t s with
    | host => rfl
    | worker =>
        rw [hparty] at hno
        exact absurd ⟨result, rfl⟩ hno
  have hhelps : helps h t (turn h t s) (.worker t startTime doneTime) →
      HandshakeState.helps h t (turn h t s) (.worker t result) := by
    intro hhelp
    cases hparty : turn h t s with
    | host =>
        rw [hparty] at hhelp
        cases hhelp
    | worker => exact ⟨result, rfl⟩
  unfold HandshakeState.attempt at hadv
  cases hnext : s.shake.next (.worker t result) with
  | none =>
      have hsame : s.workerShake t result = none := by rw [ScanState.workerShake, hnext, Option.map_none]
      rw [hnext, Option.getD_none] at hadv
      rw [hsame, Option.getD_none]
      exact advances_of_shake hcall.1 hadv rfl hhelps fun hno => .inr (hturn hno)
  | some shake =>
      have hsome : s.workerShake t result = some { s with shake, parts := Function.update s.parts t .none } := by
        rw [ScanState.workerShake, hnext, Option.map_some]
      rw [hnext, Option.getD_some] at hadv
      rw [hsome, Option.getD_some]
      refine advances_of_shake (hinv _ hsome) hadv ?_ hhelps fun hno => .inr (hturn hno)
      obtain ⟨d, hd, rfl⟩ := Option.map_eq_some_iff.mp hnext
      obtain ⟨-, hlog, hscanned⟩ := workerStep_frame hd
      unfold rows
      dsimp only
      rw [Function.update_self]
      by_cases hw : (s.shake.threads t).worker = .scanning
      · rw [(hscanned hw).1]
        rfl
      · rw [hlog hw]

/-- An event of the worker. -/
theorem InCall.worker (hcall : InCall h t s) (startTime doneTime : BitVec 32) :
    Advances h t s (.worker t startTime doneTime) ((s.next (.worker t startTime doneTime)).getD s) := by
  have hinv : ∀ s', s.workerNext t startTime doneTime = some s' → s'.Inv := fun s' hs' => hcall.1.workerNext hs'
  show Advances h t s _ ((s.workerNext t startTime doneTime).getD s)
  unfold ScanState.workerNext at hinv ⊢
  dsimp only at hinv ⊢
  split at hinv
  · rename_i hw hpart
    refine hcall.advances_part (hinv _ rfl) rfl ?_
    simp only [Option.getD_some, Function.update_self, hw, hpart, WorkerPart.rest]
    omega
  · rename_i regs i base count hw hpart
    split at hinv
    · rename_i hi
      rw [if_pos hi]
      obtain ⟨g, op, old, -, -, hruns, hlog⟩ := hcall.1.scanning hw
      have hok := hcall.1.thread t
      rw [hpart] at hok
      have hnone : lastResult (s.shake.threads t).log = none := by
        rw [hlog]
        rfl
      have hrows : s.rows t = regs.params.sizeSb.toNat := by
        unfold rows
        rw [hruns.2, (hok.part.2 op hruns).1.1]
        rfl
      obtain ⟨stored, mem, hblock, -⟩ := hok.block hruns hnone hi
      rw [hblock, Option.map_some] at hinv ⊢
      refine hcall.advances_part (hinv _ rfl) rfl ?_
      simp only [Option.getD_some, Function.update_self, hw, hpart, WorkerPart.rest, hrows]
      omega
    · rename_i hi
      rw [if_neg hi]
      exact hcall.workerShake hinv
  · rename_i part hw hpart
    refine hcall.advances_part (hinv _ rfl) rfl ?_
    have hrest : (s.parts t).rest (s.rows t) .scanning = s.rows t + 2 := by
      cases hp : s.parts t with
      | none | marked => rfl
      | scan regs i base count => exact absurd hp (hpart regs i base count)
    simp only [Option.getD_some, Function.update_self, hw, hrest]
    simp only [WorkerPart.rest]
    omega
  · rename_i hw hpart
    refine hcall.advances_part (hinv _ rfl) rfl ?_
    simp only [Option.getD_some, Function.update_self, hw, hpart, WorkerPart.rest]
    omega
  · exact hcall.workerShake hinv

/-- An event of another worker does not touch the call. -/
theorem InCall.other_worker (hcall : InCall h t s) {u : Nat} (hut : u ≠ t) {startTime doneTime : BitVec 32}
    (hnext : s.workerNext u startTime doneTime = some s') :
    s'.shake.hosts h = s.shake.hosts h ∧ s'.shake.threads t = s.shake.threads t ∧ s'.parts t = s.parts t := by
  have hpart : ∀ part, Function.update s.parts u part t = s.parts t := fun _ => Function.update_of_ne hut.symm _ _
  have hshake : ∀ result s', s.workerShake u result = some s' → s'.shake.hosts h = s.shake.hosts h ∧
      s'.shake.threads t = s.shake.threads t ∧ s'.parts t = s.parts t := by
    intro result s' hs'
    obtain ⟨shake, hstep, rfl⟩ := Option.map_eq_some_iff.mp hs'
    obtain ⟨hhosts, hthreads⟩ := HandshakeState.InCall.frame ⟨hcall.1.shake, hcall.2⟩ hstep nofun
      fun result' heq => hut (HandshakeEvent.worker.inj heq).1
    exact ⟨hhosts, hthreads, hpart _⟩
  unfold ScanState.workerNext at hnext
  dsimp only at hnext
  split at hnext
  · obtain rfl := Option.some.inj hnext
    exact ⟨rfl, rfl, hpart _⟩
  · split at hnext
    · obtain ⟨r, -, rfl⟩ := Option.map_eq_some_iff.mp hnext
      exact ⟨rfl, rfl, hpart _⟩
    · exact hshake _ _ hnext
  · obtain rfl := Option.some.inj hnext
    exact ⟨rfl, rfl, hpart _⟩
  · obtain rfl := Option.some.inj hnext
    exact ⟨rfl, rfl, hpart _⟩
  · exact hshake _ _ hnext

/-- **The distance of a call**, under any event. -/
theorem InCall.attempt (hcall : InCall h t s) (e : ScanEvent) : Advances h t s e (s.attempt e) := by
  have hshake : HandshakeState.InCall h t s.shake := ⟨hcall.1.shake, hcall.2⟩
  by_cases hpromise : s.Promised e
  · rw [ScanState.attempt, if_pos hpromise]
    by_cases hhost : e = .host h
    · rw [hhost]
      exact hcall.host
    by_cases hworker : ∃ startTime doneTime, e = .worker t startTime doneTime
    · obtain ⟨startTime, doneTime, rfl⟩ := hworker
      exact hcall.worker startTime doneTime
    have hno : ∀ party, ¬ helps h t party e := by
      intro party
      cases party with
      | host => exact hhost
      | worker => exact hworker
    cases hnext : s.next e with
    | none => exact hcall.advances_frame hcall.1 rfl rfl rfl hno
    | some s' =>
        have hinv := hcall.1.next hpromise hnext
        rw [Option.getD_some]
        cases e with
        | call g u op =>
            obtain ⟨shake, hstep, rfl⟩ := Option.map_eq_some_iff.mp hnext
            obtain ⟨hhosts, hthreads⟩ := hshake.frame hstep nofun nofun
            exact hcall.advances_frame hinv hhosts hthreads rfl hno
        | host g =>
            obtain ⟨shake, hstep, rfl⟩ := Option.map_eq_some_iff.mp hnext
            have hgh : HandshakeEvent.host g ≠ .host h := fun heq => hhost (HandshakeEvent.host.inj heq ▸ rfl)
            obtain ⟨hhosts, hthreads⟩ := hshake.frame hstep hgh nofun
            exact hcall.advances_frame hinv hhosts hthreads rfl hno
        | worker u startTime doneTime =>
            have hut : u ≠ t := fun heq => hworker ⟨startTime, doneTime, heq ▸ rfl⟩
            obtain ⟨hhosts, hthreads, hparts⟩ := hcall.other_worker hut hnext
            exact hcall.advances_frame hinv hhosts hthreads hparts hno
        | store a v =>
            obtain rfl := Option.some.inj hnext
            exact hcall.advances_frame hinv rfl rfl rfl hno
  · -- the users do not cause it
    rw [ScanState.attempt, if_neg hpromise]
    refine hcall.advances_frame hcall.1 rfl rfl rfl fun party hhelp => hpromise ?_
    cases party with
    | host =>
        rw [show e = .host h from hhelp]
        trivial
    | worker =>
        obtain ⟨startTime, doneTime, rfl⟩ := hhelp
        trivial

end Advance

/-- Host `h` and the worker of `t` have their turns again and again. -/
def Fair (h t : Nat) (sched : Nat → ScanEvent) : Prop :=
  (∀ n, ∃ m ≥ n, sched m = .host h) ∧ ∀ n, ∃ m ≥ n, ∃ startTime doneTime, sched m = .worker t startTime doneTime

/-- **Every call returns**, on every fair schedule. -/
theorem InCall.returns {h t : Nat} (hcall : InCall h t s) {sched : Nat → ScanEvent} (hfair : Fair h t sched) :
    ∃ n, (statesOf ScanState.attempt sched s n).shake.hosts h = .user := by
  refine exists_goal_of_fair (I := InCall h t) (G := fun s => s.shake.hosts h = .user) (distance h t) (turn h t)
    (helps h t) (fun s e hin _ => hin.attempt e) (fun party n => ?_) hcall
  cases party with
  | host => exact hfair.1 n
  | worker => exact hfair.2 n

/-- A worker changes only bytes of the result of the operation that it scans for. -/
theorem Inv.confined (hinv : s.Inv) {s' : ScanState} {t a : Nat} {startTime doneTime : BitVec 32}
    (hnext : s.workerNext t startTime doneTime = some s') (ha : s'.mem a ≠ s.mem a) :
    ∃ op, (s.shake.threads t).Runs op ∧ op.Writes a := by
  have hshake : ∀ result, s.workerShake t result = some s' → s'.mem = s.mem := by
    intro result hs'
    obtain ⟨shake, -, rfl⟩ := Option.map_eq_some_iff.mp hs'
    rfl
  unfold ScanState.workerNext at hnext
  dsimp only at hnext
  split at hnext
  · obtain rfl := Option.some.inj hnext
    exact absurd rfl ha
  · rename_i regs i base count hw hpart
    split at hnext
    · rename_i hi
      obtain ⟨g, op, old, -, -, hruns, hlog⟩ := hinv.scanning hw
      have hok := hinv.thread t
      rw [hpart] at hok
      obtain ⟨stored, mem, hblock, hframe, -⟩ := hok.block hruns (by rw [hlog]; rfl) hi
      rw [hblock, Option.map_some] at hnext
      obtain rfl := Option.some.inj hnext
      exact ⟨op, hruns, hframe a ha⟩
    · exact absurd (congrFun (hshake _ hnext) a) ha
  · obtain rfl := Option.some.inj hnext
    exact absurd rfl ha
  · obtain rfl := Option.some.inj hnext
    exact absurd rfl ha
  · exact absurd (congrFun (hshake _ hnext) a) ha

/-! ## The system -/

/-- **Scans of concurrent hosts are right.** -/
structure ScansCorrect (s : ScanState) : Prop where
  /-- A host that has read its result, until its call returns, has read the size of its own result, and the result in
      memory is that of the scalar scan of the column and the predicate in memory. -/
  returned : ∀ h t, (s.shake.hosts h).thread = some t → (s.shake.hosts h).returning → ∃ op regs r old,
    (s.shake.threads t).log = .read h r :: .scanned regs r :: .called h op :: old ∧ op.Correct s.mem r
  /-- A worker changes only bytes of the result of the operation that it scans for. -/
  confined : ∀ t startTime doneTime s', s.next (.worker t startTime doneTime) = some s' → ∀ a, s'.mem a ≠ s.mem a →
    ∃ op, (s.shake.threads t).Runs op ∧ op.Writes a
  /-- `IMDB_COM_STATUS` has the bit of a thread exactly if its worker is not working. -/
  comStatus : ∀ t < numOfThreads, s.comStatus.getLsbD t = !works (s.shake.threads t).worker (s.parts t)
  /-- Every call returns. -/
  returns : ∀ h t sched, (s.shake.hosts h).thread = some t → Fair h t sched →
    ∃ n, (statesOf attempt sched s n).shake.hosts h = .user

theorem Inv.scansCorrect (h : s.Inv) : ScansCorrect s where
  returned := by
    intro g t hthread hret
    obtain ⟨op, regs, r, old, hlog⟩ := h.returned g t hthread hret
    refine ⟨op, regs, r, old, hlog, (h.thread t).result op r ⟨?_, ?_⟩ ?_⟩
    · rw [h.shake.owned g t hthread]
      nofun
    · rw [hlog]
      rfl
    · rw [hlog]
      rfl
  confined := fun _ _ _ _ hnext _ ha => h.confined hnext ha
  comStatus := h.com
  returns := fun _ _ _ hthread hfair => InCall.returns ⟨h, hthread⟩ hfair

/-- **Concurrent scans on the simulator.** Any number of hosts scan on any number of device threads that share the
    device memory, and users store to it, in any order down to single blocks, as long as they keep off the input and
    the result of operations that run: then all goes well at any time. -/
theorem concurrent_scans (mem : Mem) (es : List ScanEvent) (hes : Allowed next Promised (init mem) es) :
    Along next ScansCorrect (init mem) es :=
  Allowed.along (fun _ _ _ hinv hnext hpromise => hinv.next hpromise hnext) (fun _ hinv => hinv.scansCorrect)
    (inv_init mem) hes

/-- Steps of hosts and workers need no promise. -/
theorem allowed_of_steps {es : List ScanEvent} (hes : ∀ e ∈ es, e.isStep) (s : ScanState) :
    Allowed next Promised s es := by
  induction es generalizing s with
  | nil => trivial
  | cons e es ih =>
      intro s' _
      refine ⟨?_, ih (fun e' he' => hes e' (List.mem_cons_of_mem e he')) s'⟩
      have hstep := hes e List.mem_cons_self
      cases e with
      | host h | worker t startTime doneTime => trivial
      | call h t op | store a v => cases hstep

end ScanState

/-! ## Two scans of one column -/

/-- Sixteen rows of a byte each, and the rows from `1` to `3` wanted as bits. -/
def sampleBits : ScanOperation :=
  { bitCompression := 8, column := 0, elementsCount := 16, predicate := .range 1 3, outputType := .bitVector
    result := 4096, resultSize := 64 }

/-- The rows with a `2`, as indices. -/
def sampleIndices : ScanOperation :=
  { sampleBits with predicate := .range 2 2, outputType := .indexVector, result := 8192, resultSize := 16 }

def sampleBytes : Mem := fun a => BitVec.ofNat 8 (a % 7)

/-- Both hosts start their scans, the workers take turns, and both hosts read their results. -/
def sampleTurns : List ScanEvent :=
  List.replicate 21 (.host 0) ++ List.replicate 21 (.host 1) ++
    (List.replicate 13 [ScanEvent.worker 0 0 0, .worker 1 0 0]).flatten ++
    [.host 0, .host 0, .host 0, .worker 0 0 0, .worker 0 0 0, .host 0] ++
    [.host 1, .host 1, .host 1, .worker 1 0 0, .worker 1 0 0, .host 1]

def sampleScans : List ScanEvent := .call 0 0 sampleBits :: .call 1 1 sampleIndices :: sampleTurns

theorem sampleBits_promise : sampleBits.Promise sampleBytes where
  bits := by decide
  predicate := by
    show (1#32).toNat < 2 ^ 31 ∧ (3#32).toNat < 2 ^ 31
    decide
  index := nofun
  separate := by
    rintro a ⟨hlow, -⟩ (⟨-, hhigh⟩ | hlist)
    · have h1 : 4096 ≤ a := hlow
      have h2 : a < 0 + 128 := hhigh
      omega
    · exact hlist

theorem sampleIndices_promise : sampleIndices.Promise sampleBytes where
  bits := by decide
  predicate := by
    show (2#32).toNat < 2 ^ 31 ∧ (2#32).toNat < 2 ^ 31
    decide
  index := by
    refine fun _ => ⟨by decide, by decide, ?_, fun i hge hi => ?_⟩
    · unfold LastFits
      decide +kernel
    · have h1 : 16 ≤ i := hge
      have h2 : i < 16 := hi
      omega
  separate := by
    rintro a ⟨hlow, -⟩ (⟨-, hhigh⟩ | hlist)
    · have h1 : 8192 ≤ a := hlow
      have h2 : a < 0 + 128 := hhigh
      omega
    · exact hlist

theorem sample_apart : sampleIndices.Apart sampleBits := by
  have hbits : ∀ a, sampleBits.Writes a → 4096 ≤ a ∧ a < 4096 + 64 := fun a h => h
  have hindices : ∀ a, sampleIndices.Writes a → 8192 ≤ a ∧ a < 8192 + 64 := fun a h => h
  have hreads : ∀ op : ScanOperation, op = sampleBits ∨ op = sampleIndices → ∀ a, op.Reads a → a < 0 + 128 := by
    rintro op (rfl | rfl) a (⟨-, h⟩ | h)
    · exact h
    · exact h.elim
    · exact h
    · exact h.elim
  intro a
  refine ⟨fun hw => ⟨fun hr => ?_, fun hw' => ?_⟩, fun hw => ⟨fun hr => ?_, fun hw' => ?_⟩⟩
  · have := hindices a hw
    have := hreads _ (.inl rfl) a hr
    omega
  · have := hindices a hw
    have := hbits a hw'
    omega
  · have := hbits a hw
    have := hreads _ (.inr rfl) a hr
    omega
  · have := hbits a hw
    have := hindices a hw'
    omega

theorem sampleScans_allowed : Allowed ScanState.next ScanState.Promised (.init sampleBytes) sampleScans := by
  intro s hs
  obtain rfl := Option.some.inj hs
  refine ⟨⟨sampleBits_promise, fun t op' hop' => absurd rfl hop'.1⟩, ?_⟩
  intro s' hs'
  obtain rfl := Option.some.inj hs'
  refine ⟨⟨sampleIndices_promise, fun t op' hop' => ?_⟩, ScanState.allowed_of_steps (by decide) _⟩
  -- only the first operation runs
  by_cases ht : t = 0
  · subst ht
    obtain rfl := Option.some.inj hop'.2
    exact sample_apart
  · have hfree : (Function.update HandshakeState.init.threads 0 { HandshakeState.init.threads 0 with
        owner := some 0, log := .called 0 sampleBits :: (HandshakeState.init.threads 0).log } t).Runs op' := hop'
    rw [Function.update_of_ne ht] at hfree
    exact absurd rfl hfree.1

/-- Both hosts have read their results. -/
theorem concurrent_scans_sample : ∃ s, sampleScans.foldlM ScanState.next (.init sampleBytes) = some s ∧
    ∀ h < 2, ∃ op regs r old, (s.shake.threads h).log = .read h r :: .scanned regs r :: .called h op :: old ∧
      op.Correct s.mem r := by
  have hrun : (sampleScans.foldlM ScanState.next (.init sampleBytes)).map (fun s =>
      (List.range 2).all fun h => (s.shake.hosts h).returning && (s.shake.hosts h).thread == some h) = some true := by
    decide +kernel
  obtain ⟨s, hs, hhosts⟩ := Option.map_eq_some_iff.mp hrun
  have hcorrect := (ScanState.concurrent_scans sampleBytes sampleScans sampleScans_allowed).of_foldlM hs
  refine ⟨s, hs, fun h hh => ?_⟩
  have hhost := List.all_eq_true.mp hhosts h (List.mem_range.mpr hh)
  rw [Bool.and_eq_true, beq_iff_eq] at hhost
  exact hcorrect.returned h h hhost.2 hhost.1

end Pnm.Imdb

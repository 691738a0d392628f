import Pnm.Imdb.Agreement

/-!
# `Imdb.Progress` — every call returns, and the handshake as a whole

Host and worker both poll, so a call returns only if both have their turns. At any time one of the two can go on
(`turn`), and every step of that one brings the call closer to its end (`distance`), while the other's steps change
nothing that counts. So every call returns on every fair schedule (`InCall.returns`). In the meantime only its own scan
and its own reading are added to what has happened on the device thread (`Since`), so a call that is accepted leads to
one scan (`InCall.completes`). Together with the invariant this is `handshake_orderly`.
-/

namespace Pnm.Imdb

open Pnm.Lib

/-- Who can go on. -/
inductive Party where
  | host
  | worker

/-- The host polls while the status is busy, and joins when the worker has exited. -/
def turn (d : DeviceThread) : HostPlace → Party
  | .waiting _ _ => if d.regs.status = statusBusy then .worker else .host
  | .joining _   => if d.worker = .exited then .host else .worker
  | _            => .host

/-- How many steps the worker is from the end of a scan. -/
def WorkerPlace.rest : WorkerPlace → Nat
  | queued     => 7
  | top        => 6
  | polling    => 5
  | busying    => 4
  | scanning   => 3
  | clearing   => 2
  | publishing => 1
  | _          => 0

/-- How many steps the worker is from its exit. -/
def WorkerPlace.joinRest : WorkerPlace → Nat
  | polling => 2
  | top     => 1
  | _       => 0

/-- A bound for the steps of host and worker until the call returns. -/
def distance (d : DeviceThread) : HostPlace → Nat
  | .user => 0
  | .enabling _ op => 110 + op.writeRegisters.length
  | .spawning _ op => 100 + op.writeRegisters.length
  | .writing _ _ writes => 90 + writes.length
  | .marking _ _ => 80
  | .loading _ _ => 70
  | .starting _ _ _ => 60
  | .waiting _ _ => 50 + if d.regs.status = statusBusy then d.worker.rest else 0
  | .reading _ _ => 40
  | .stopping _ => 30
  | .joining _ => 20 + d.worker.joinRest
  | .releasing _ => 10
  | .thrown _ => 0

theorem WorkerPlace.rest_le (w : WorkerPlace) : w.rest ≤ 7 := by
  cases w <;> decide

theorem WorkerPlace.joinRest_le (w : WorkerPlace) : w.joinRest ≤ 2 := by
  cases w <;> decide

theorem turn_waiting_eq_worker {d : DeviceThread} {t : Nat} {op : ScanOperation} :
    turn d (.waiting t op) = .worker ↔ d.regs.status = statusBusy := by
  rw [turn]
  split <;> simp [*]

theorem turn_waiting_eq_host {d : DeviceThread} {t : Nat} {op : ScanOperation} :
    turn d (.waiting t op) = .host ↔ d.regs.status ≠ statusBusy := by
  rw [turn]
  split <;> simp [*]

theorem turn_joining_eq_host {d : DeviceThread} {t : Nat} : turn d (.joining t) = .host ↔ d.worker = .exited := by
  rw [turn]
  split <;> simp [*]

theorem turn_joining_eq_worker {d : DeviceThread} {t : Nat} : turn d (.joining t) = .worker ↔ d.worker ≠ .exited := by
  rw [turn]
  split <;> simp [*]

/-- In the host's turn its step brings the call closer to its end. -/
theorem hostStep_closer {h : Nat} {d : DeviceThread} {place : HostPlace} (hagree : Agree h d place)
    (hturn : turn d place = .host) :
    ∃ place' d', hostStep h d place = some (place', d') ∧ distance d' place' < distance d place := by
  cases place with
  | user => exact hagree.elim
  | enabling t op =>
      rw [hostStep, if_pos hagree.1]
      refine ⟨_, _, rfl, ?_⟩
      simp [distance]
  | spawning t op =>
      refine ⟨_, _, rfl, ?_⟩
      simp [distance]
  | writing t op writes =>
      cases writes with
      | nil =>
          refine ⟨_, _, rfl, ?_⟩
          simp [distance]
      | cons w ws =>
          refine ⟨_, _, rfl, ?_⟩
          simp [distance]
  | marking t op =>
      refine ⟨_, _, rfl, ?_⟩
      simp [distance]
  | loading t op =>
      refine ⟨_, _, rfl, ?_⟩
      simp [distance]
  | starting t op control =>
      refine ⟨_, _, rfl, ?_⟩
      have hrest := d.worker.rest_le
      simp only [distance]
      split <;> omega
  | waiting t op =>
      have hbusy := turn_waiting_eq_host.mp hturn
      rw [hostStep, if_neg hbusy]
      refine ⟨_, _, rfl, ?_⟩
      simp [distance, hbusy]
  | reading t op =>
      refine ⟨_, _, rfl, ?_⟩
      simp [distance]
  | stopping t =>
      have hworker : d.worker ≠ .disabled := by
        rcases hagree.1.worker with hw | hw | hw <;> simp [hw]
      rw [hostStep, if_neg hworker]
      refine ⟨_, _, rfl, ?_⟩
      have hrest := d.worker.joinRest_le
      simp only [distance]
      omega
  | joining t =>
      have hexited := turn_joining_eq_host.mp hturn
      rw [hostStep, if_pos hexited]
      refine ⟨_, _, rfl, ?_⟩
      simp only [distance]
      omega
  | releasing t =>
      refine ⟨_, _, rfl, ?_⟩
      simp [distance]
  | thrown t => exact hagree.elim

/-- In the worker's turn the host polls or is blocked. -/
theorem hostStep_same {h : Nat} {d d' : DeviceThread} {place place' : HostPlace} (hturn : turn d place = .worker)
    (hstep : hostStep h d place = some (place', d')) : place' = place ∧ d' = d := by
  cases place with
  | waiting t op =>
      have hbusy := turn_waiting_eq_worker.mp hturn
      rw [hostStep, if_pos hbusy] at hstep
      obtain ⟨rfl, rfl⟩ := Prod.mk.inj (Option.some.inj hstep)
      exact ⟨rfl, rfl⟩
  | joining t =>
      have hrunning := turn_joining_eq_worker.mp hturn
      rw [hostStep, if_neg hrunning] at hstep
      cases hstep
  | _ => cases hturn

/-- In the worker's turn its step brings the call closer to its end. -/
theorem workerStep_closer {h : Nat} {d : DeviceThread} {place : HostPlace} (hagree : Agree h d place)
    (hturn : turn d place = .worker) (result : ScanResult) :
    ∃ d', workerStep d result = some d' ∧ distance d' place < distance d place := by
  cases place with
  | waiting t op =>
      have hbusy := turn_waiting_eq_worker.mp hturn
      obtain ⟨hstop, hphase⟩ := hagree
      cases hphase with
      | before hworker _ hwritten _ =>
          rcases hworker with hw | hw | hw | hw | hw <;>
            simp [workerStep, hw, hstop, hwritten.shouldStartScan, distance, hbusy, WorkerPlace.rest]
      | clearing hw => simp [workerStep, hw, distance, hbusy, WorkerPlace.rest]
      | publishing hw => simp [workerStep, hw, distance, hbusy, WorkerPlace.rest, statusBusy]
      | done _ hstatus =>
          rw [hstatus] at hbusy
          exact absurd hbusy (by decide)
  | joining t =>
      obtain ⟨hstop, hstart, hw | hw | hw, -⟩ := hagree
      · simp [workerStep, hw, hstop, distance, WorkerPlace.joinRest]
      · simp [workerStep, hw, hstart, distance, WorkerPlace.joinRest]
      · exact absurd hw (turn_joining_eq_worker.mp hturn)
  | _ => cases hturn

/-- In the host's turn the worker polls. -/
theorem workerStep_same {h : Nat} {d d' : DeviceThread} {place : HostPlace} {result : ScanResult}
    (hagree : Agree h d place) (hturn : turn d place = .host) (hstep : workerStep d result = some d') :
    distance d' place = distance d place ∧ turn d' place = turn d place := by
  cases place with
  | waiting t op =>
      have hbusy := turn_waiting_eq_host.mp hturn
      have hstatus : d'.regs.status = d.regs.status := by
        obtain ⟨hstop, hphase⟩ := hagree
        cases hphase with
        | before _ hstatus => exact absurd hstatus hbusy
        | clearing _ hstatus => exact absurd hstatus hbusy
        | publishing _ hstatus => exact absurd hstatus hbusy
        | done hworker _ hctrl _ =>
            have hidle : Idle d := ⟨hstop, shouldStartScan_of_zero hctrl, .inr hworker⟩
            rw [(hidle.workerStep hstep).2.2.2.1]
      simp only [distance, turn, hstatus, if_neg hbusy, and_self]
  | joining t =>
      have hexited := turn_joining_eq_host.mp hturn
      simp only [workerStep, hexited] at hstep
      cases hstep
  | _ => exact ⟨rfl, rfl⟩

namespace HandshakeState

variable {s : HandshakeState}

/-- The events of a party, for host `h` and device thread `t`. -/
def helps (h t : Nat) : Party → HandshakeEvent → Prop
  | .host, e   => e = .host h
  | .worker, e => ∃ result, e = .worker t result

/-- Host `h` is in a call on device thread `t`. -/
def InCall (h t : Nat) (s : HandshakeState) : Prop := Inv s ∧ (s.hosts h).thread = some t

/-- Events of other hosts and other workers do not touch the call. -/
theorem InCall.frame {h t : Nat} (hcall : InCall h t s) {s' : HandshakeState} {e : HandshakeEvent}
    (hnext : s.next e = some s') (hhost : e ≠ .host h) (hworker : ∀ result, e ≠ .worker t result) :
    s'.hosts h = s.hosts h ∧ s'.threads t = s.threads t := by
  obtain ⟨hinv, hthread⟩ := hcall
  have hown := hinv.owned h t hthread
  cases e with
  | call g u op =>
      rw [HandshakeState.next] at hnext
      split at hnext
      · rename_i huser hnone
        obtain rfl := Option.some.inj hnext
        have hgh : h ≠ g := by
          rintro rfl
          rw [huser] at hthread
          cases hthread
        have hut : t ≠ u := by
          rintro rfl
          cases hnone.symm.trans hown
        exact ⟨Function.update_of_ne hgh .., Function.update_of_ne hut ..⟩
      · cases hnext
  | host g =>
      obtain ⟨u, hu, hmap⟩ := Option.bind_eq_some_iff.mp hnext
      obtain ⟨r, -, rfl⟩ := Option.map_eq_some_iff.mp hmap
      have hgh : h ≠ g := by
        rintro rfl
        exact hhost rfl
      have hut : t ≠ u := by
        rintro rfl
        exact hgh (Option.some.inj (hown.symm.trans (hinv.owned g t hu)))
      exact ⟨Function.update_of_ne hgh .., Function.update_of_ne hut ..⟩
  | worker u result =>
      obtain ⟨d, -, rfl⟩ := Option.map_eq_some_iff.mp hnext
      have hut : t ≠ u := by
        rintro rfl
        exact hworker result rfl
      exact ⟨rfl, Function.update_of_ne hut ..⟩

/-- After an event the call has returned, or is closer to its end, or nothing has changed that counts and the event
    was not of the party that can go on. -/
def Advances (h t : Nat) (s : HandshakeState) (e : HandshakeEvent) (s' : HandshakeState) : Prop :=
  s'.hosts h = .user ∨ (InCall h t s' ∧
    (distance (s'.threads t) (s'.hosts h) < distance (s.threads t) (s.hosts h) ∨
      (distance (s'.threads t) (s'.hosts h) = distance (s.threads t) (s.hosts h) ∧
        turn (s'.threads t) (s'.hosts h) = turn (s.threads t) (s.hosts h) ∧
        ¬ helps h t (turn (s.threads t) (s.hosts h)) e)))

/-- An event that is not possible, or changes nothing. -/
theorem InCall.advances_same {h t : Nat} (hcall : InCall h t s) {e : HandshakeEvent}
    (hno : ¬ helps h t (turn (s.threads t) (s.hosts h)) e) : Advances h t s e s :=
  .inr ⟨hcall, .inr ⟨rfl, rfl, hno⟩⟩

/-- An event of the host. -/
theorem InCall.attempt_host {h t : Nat} (hcall : InCall h t s) : Advances h t s (.host h) (s.attempt (.host h)) := by
  obtain ⟨-, hagree⟩ := hcall.1.locked t h (hcall.1.owned h t hcall.2)
  have hnext : s.next (.host h) = (hostStep h (s.threads t) (s.hosts h)).map fun r =>
      { hosts := Function.update s.hosts h r.1, threads := Function.update s.threads t r.2 } := by
    rw [HandshakeState.next, hcall.2, Option.bind_some]
  cases hturn : turn (s.threads t) (s.hosts h) with
  | host =>
      obtain ⟨place, d, hstep, hlt⟩ := hostStep_closer hagree hturn
      rw [hstep, Option.map_some] at hnext
      have hinv := hcall.1.next hnext
      rw [HandshakeState.attempt, hnext, Option.getD_some, Advances]
      dsimp only
      rw [Function.update_self, Function.update_self]
      rcases hagree.hostStep hstep with ⟨-, hthread, -⟩ | ⟨huser, -⟩
      · refine .inr ⟨⟨hinv, ?_⟩, .inl hlt⟩
        dsimp only
        rw [Function.update_self, hthread]
        exact hcall.2
      · exact .inl huser
  | worker =>
      have hsame : s.attempt (.host h) = s := by
        rw [HandshakeState.attempt, hnext]
        cases hstep : hostStep h (s.threads t) (s.hosts h) with
        | none => rfl
        | some r =>
            obtain ⟨hplace, hd⟩ := hostStep_same hturn hstep
            rw [Option.map_some, Option.getD_some, hplace, hd, Function.update_eq_self, Function.update_eq_self]
      rw [hsame]
      refine hcall.advances_same ?_
      rw [hturn]
      rintro ⟨result, heq⟩
      cases heq

/-- An event of the worker. -/
theorem InCall.attempt_worker {h t : Nat} (hcall : InCall h t s) (result : ScanResult) :
    Advances h t s (.worker t result) (s.attempt (.worker t result)) := by
  obtain ⟨-, hagree⟩ := hcall.1.locked t h (hcall.1.owned h t hcall.2)
  have hno : turn (s.threads t) (s.hosts h) = .host →
      ¬ helps h t (turn (s.threads t) (s.hosts h)) (.worker t result) := by
    intro hturn
    rw [hturn]
    intro heq
    cases heq
  cases hstep : workerStep (s.threads t) result with
  | none =>
      have hnext : s.next (.worker t result) = none := by rw [HandshakeState.next, hstep, Option.map_none]
      rw [HandshakeState.attempt, hnext]
      refine hcall.advances_same (hno ?_)
      -- a worker whose turn it is can go on
      cases hturn : turn (s.threads t) (s.hosts h) with
      | host => rfl
      | worker =>
          obtain ⟨d, hd, -⟩ := workerStep_closer hagree hturn result
          cases hstep.symm.trans hd
  | some d =>
      have hnext : s.next (.worker t result) = some { s with threads := Function.update s.threads t d } := by
        rw [HandshakeState.next, hstep, Option.map_some]
      have hin : InCall h t { s with threads := Function.update s.threads t d } := ⟨hcall.1.next hnext, hcall.2⟩
      rw [HandshakeState.attempt, hnext, Option.getD_some, Advances]
      dsimp only
      rw [Function.update_self]
      cases hturn : turn (s.threads t) (s.hosts h) with
      | host =>
          obtain ⟨hdist, hturn'⟩ := workerStep_same hagree hturn hstep
          exact .inr ⟨hin, .inr ⟨hdist, hturn'.trans hturn, hturn ▸ hno hturn⟩⟩
      | worker =>
          obtain ⟨d', hd', hlt⟩ := workerStep_closer hagree hturn result
          obtain rfl := Option.some.inj (hstep.symm.trans hd')
          exact .inr ⟨hin, .inl hlt⟩

/-- **The distance of a call**, under any event. -/
theorem InCall.attempt {h t : Nat} (hcall : InCall h t s) (e : HandshakeEvent) : Advances h t s e (s.attempt e) := by
  by_cases hhost : e = .host h
  · rw [hhost]
    exact hcall.attempt_host
  by_cases hworker : ∃ result, e = .worker t result
  · obtain ⟨result, rfl⟩ := hworker
    exact hcall.attempt_worker result
  -- the event of another host, or of another worker
  have hno : ∀ party, ¬ helps h t party e := by
    intro party
    cases party with
    | host => exact hhost
    | worker => exact hworker
  rw [HandshakeState.attempt]
  cases hnext : s.next e with
  | none => exact hcall.advances_same (hno _)
  | some s' =>
      obtain ⟨hhosts, hthreads⟩ := hcall.frame hnext hhost fun result heq => hworker ⟨result, heq⟩
      rw [Option.getD_some, Advances, hhosts, hthreads]
      refine .inr ⟨⟨hcall.1.next hnext, ?_⟩, .inr ⟨rfl, rfl, hno _⟩⟩
      rw [hhosts]
      exact hcall.2

/-- **Every call returns**, on every fair schedule. -/
theorem InCall.returns {h t : Nat} (hcall : InCall h t s) {sched : Nat → HandshakeEvent} (hfair : Fair h t sched) :
    ∃ n, (statesOf HandshakeState.attempt sched s n).hosts h = .user := by
  refine exists_goal_of_fair (I := InCall h t) (G := fun s => s.hosts h = .user)
    (fun s => distance (s.threads t) (s.hosts h)) (fun s => turn (s.threads t) (s.hosts h)) (helps h t)
    (fun s e hin _ => hin.attempt e) (fun party n => ?_) hcall
  cases party with
  | host => exact hfair.1 n
  | worker => exact hfair.2 n

/-! ## What happens during a call -/

/-- Since host `h` has called, no other host has. -/
def Since (h : Nat) (op : ScanOperation) (old : List HandshakeEntry) (d : DeviceThread) : Prop :=
  ∃ new, d.log = new ++ .called h op :: old ∧ ∀ g op', .called g op' ∉ new

theorem Since.cons {h : Nat} {op : ScanOperation} {old : List HandshakeEntry} {d d' : DeviceThread}
    (hsince : Since h op old d) {x : HandshakeEntry} (hx : ∀ g op', x ≠ .called g op') (hlog : d'.log = x :: d.log) :
    Since h op old d' := by
  obtain ⟨new, hnew, hnone⟩ := hsince
  refine ⟨x :: new, by rw [hlog, hnew, List.cons_append], fun g op' hmem => ?_⟩
  rcases List.mem_cons.mp hmem with heq | hmem
  · exact hx g op' heq.symm
  · exact hnone g op' hmem

/-- If the calls are complete then, the last one is this one. -/
theorem Since.complete {h : Nat} {op : ScanOperation} {old : List HandshakeEntry} {d : DeviceThread}
    (hsince : Since h op old d) (hlog : Handshakes d.log) :
    ∃ regs result, regs.WrittenBy op ∧ d.log = .read h result :: .scanned regs result :: .called h op :: old := by
  obtain ⟨new, hnew, hnone⟩ := hsince
  rw [hnew] at hlog ⊢
  generalize hall : new ++ .called h op :: old = log at hlog
  cases hlog with
  | nil => simp at hall
  | call g op' regs result _ hregs =>
      -- the entries before the call are the reading and the scan
      match new with
      | [] => cases hall
      | [_] => cases hall
      | [_, _] =>
          cases hall
          exact ⟨regs, result, hregs, rfl⟩
      | _ :: _ :: x :: _ =>
          simp only [List.cons_append, List.cons.injEq] at hall
          obtain ⟨-, -, rfl, -⟩ := hall
          exact absurd (by simp) (hnone g op')

/-- A host writes down that it has read a result, and nothing else. -/
theorem hostStep_log {h : Nat} {d d' : DeviceThread} {place place' : HostPlace}
    (hstep : hostStep h d place = some (place', d')) : d'.log = d.log ∨ ∃ result, d'.log = .read h result :: d.log := by
  unfold hostStep at hstep
  split at hstep
  all_goals
    try split at hstep
    all_goals
      first
        | contradiction
        | (obtain ⟨-, rfl⟩ := Prod.mk.inj (Option.some.inj hstep)
           first
             | exact .inl rfl
             | exact .inr ⟨_, rfl⟩)

/-- A worker writes down its scan. -/
theorem workerStep_log {d d' : DeviceThread} {result : ScanResult} (hstep : workerStep d result = some d') :
    d'.log = d.log ∨ d'.log = .scanned d.regs result :: d.log := by
  unfold workerStep at hstep
  split at hstep
  all_goals
    first
      | contradiction
      | (obtain rfl := Option.some.inj hstep
         first
           | exact .inl rfl
           | exact .inr rfl)

/-- **Only a scan or a reading is added** while a call lasts. -/
theorem InCall.since_attempt {h t : Nat} {op : ScanOperation} {old : List HandshakeEntry} (hcall : InCall h t s)
    (hsince : Since h op old (s.threads t)) (e : HandshakeEvent) : Since h op old ((s.attempt e).threads t) := by
  rw [HandshakeState.attempt]
  cases hnext : s.next e with
  | none => exact hsince
  | some s' =>
      rw [Option.getD_some]
      by_cases hhost : e = .host h
      · subst hhost
        rw [HandshakeState.next, hcall.2, Option.bind_some] at hnext
        obtain ⟨r, hstep, rfl⟩ := Option.map_eq_some_iff.mp hnext
        dsimp only
        rw [Function.update_self]
        rcases hostStep_log hstep with hlog | ⟨result, hlog⟩
        · rw [Since, hlog]
          exact hsince
        · exact hsince.cons (by simp) hlog
      by_cases hworker : ∃ result, e = .worker t result
      · obtain ⟨result, rfl⟩ := hworker
        obtain ⟨d, hstep, rfl⟩ := Option.map_eq_some_iff.mp hnext
        dsimp only
        rw [Function.update_self]
        rcases workerStep_log hstep with hlog | hlog
        · rw [Since, hlog]
          exact hsince
        · exact hsince.cons (by simp) hlog
      · rw [(hcall.frame hnext hhost fun result heq => hworker ⟨result, heq⟩).2]
        exact hsince

/-- A call returns with the host's last step, and is complete then. -/
theorem InCall.complete_of_user {h t : Nat} (hcall : InCall h t s) {e : HandshakeEvent}
    (huser : (s.attempt e).hosts h = .user) : Handshakes ((s.attempt e).threads t).log := by
  have hbusy : s.hosts h ≠ .user := by
    intro heq
    have hthread := hcall.2
    rw [heq] at hthread
    cases hthread
  rw [HandshakeState.attempt] at huser ⊢
  cases hnext : s.next e with
  | none =>
      rw [hnext] at huser
      exact absurd huser hbusy
  | some s' =>
      rw [hnext, Option.getD_some] at huser
      rw [Option.getD_some]
      by_cases hhost : e = .host h
      · subst hhost
        rw [HandshakeState.next, hcall.2, Option.bind_some] at hnext
        obtain ⟨⟨place, d⟩, hstep, rfl⟩ := Option.map_eq_some_iff.mp hnext
        dsimp only at huser ⊢
        rw [Function.update_self] at huser ⊢
        obtain ⟨-, hagree⟩ := hcall.1.locked t h (hcall.1.owned h t hcall.2)
        rcases hagree.hostStep hstep with ⟨hagree', -⟩ | ⟨-, -, hfree⟩
        · rw [huser] at hagree'
          exact hagree'.elim
        · exact hfree.complete
      · -- no other event moves the host
        have hsame : s'.hosts h = s.hosts h := by
          by_cases hworker : ∃ result, e = .worker t result
          · obtain ⟨result, rfl⟩ := hworker
            obtain ⟨d, -, rfl⟩ := Option.map_eq_some_iff.mp hnext
            rfl
          · exact (hcall.frame hnext hhost fun result heq => hworker ⟨result, heq⟩).1
        exact absurd (hsame.symm.trans huser) hbusy

/-- **A call leads to one scan**, on every fair schedule. -/
theorem InCall.completes {h t : Nat} {op : ScanOperation} {old : List HandshakeEntry} (hcall : InCall h t s)
    (hsince : Since h op old (s.threads t)) {sched : Nat → HandshakeEvent} (hfair : Fair h t sched) :
    ∃ n regs result, (∀ m < n, (statesOf HandshakeState.attempt sched s m).hosts h ≠ .user) ∧
      (statesOf HandshakeState.attempt sched s n).hosts h = .user ∧ regs.WrittenBy op ∧
      ((statesOf HandshakeState.attempt sched s n).threads t).log =
        .read h result :: .scanned regs result :: .called h op :: old := by
  classical
  obtain ⟨n, huser, hfirst⟩ : ∃ n, (statesOf HandshakeState.attempt sched s n).hosts h = .user ∧
      ∀ m < n, (statesOf HandshakeState.attempt sched s m).hosts h ≠ .user :=
    ⟨Nat.find (hcall.returns hfair), Nat.find_spec (hcall.returns hfair), fun _ hm => Nat.find_min _ hm⟩
  -- up to its return the call goes on, and only its own entries are added
  have hlasts : ∀ m < n, InCall h t (statesOf HandshakeState.attempt sched s m) ∧
      Since h op old ((statesOf HandshakeState.attempt sched s m).threads t) := by
    intro m
    induction m with
    | zero => exact fun _ => ⟨hcall, hsince⟩
    | succ m ih =>
        intro hm
        obtain ⟨hcall', hsince'⟩ := ih (Nat.lt_of_succ_lt hm)
        rcases hcall'.attempt (sched m) with hret | ⟨hnext, -⟩
        · exact absurd hret (hfirst (m + 1) hm)
        · exact ⟨hnext, hcall'.since_attempt hsince' (sched m)⟩
  cases n with
  | zero =>
      have hthread := hcall.2
      rw [show s.hosts h = .user from huser] at hthread
      cases hthread
  | succ m =>
      obtain ⟨hcall', hsince'⟩ := hlasts m (Nat.lt_succ_self m)
      obtain ⟨regs, result, hwritten, hlog⟩ :=
        (hcall'.since_attempt hsince' (sched m)).complete (hcall'.complete_of_user huser)
      exact ⟨m + 1, regs, result, hfirst, huser, hwritten, hlog⟩

/-! ## The handshake -/

/-- What an agreement says about the calls so far. -/
theorem calls_of_agree {h : Nat} {d : DeviceThread} {place : HostPlace} (hagree : Agree h d place) :
    Handshakes d.log ∨ ∃ h op, Called h op d ∨ Scanned h op d := by
  cases place with
  | user => exact hagree.elim
  | enabling t op => exact .inr ⟨h, op, .inl hagree.2.2⟩
  | spawning t op => exact .inr ⟨h, op, .inl hagree.2.2.2⟩
  | writing t op writes => exact .inr ⟨h, op, .inl hagree.2.1⟩
  | marking t op => exact .inr ⟨h, op, .inl hagree.2.1⟩
  | loading t op => exact .inr ⟨h, op, .inl hagree.2.1⟩
  | starting t op control => exact .inr ⟨h, op, .inl hagree.2.1⟩
  | waiting t op =>
      cases hagree.2 with
      | before _ _ _ hcalled => exact .inr ⟨h, op, .inl hcalled⟩
      | clearing _ _ hscanned => exact .inr ⟨h, op, .inr hscanned⟩
      | publishing _ _ _ hscanned => exact .inr ⟨h, op, .inr hscanned⟩
      | done _ _ _ hscanned => exact .inr ⟨h, op, .inr hscanned⟩
  | reading t op => exact .inr ⟨h, op, .inr hagree.2.2⟩
  | stopping t => exact .inl hagree.2.2
  | joining t => exact .inl hagree.2.2.2
  | releasing t => exact .inl hagree.2.2
  | thrown t => exact hagree.elim

/-- Only while its host waits does a worker have a start bit. -/
theorem waiting_of_picked {h : Nat} {d : DeviceThread} {place : HostPlace} (hagree : Agree h d place)
    (hworker : d.worker = .busying ∨ d.worker = .scanning) :
    ∃ t op, place = .waiting t op ∧ Called h op d ∧ d.regs.WrittenBy op := by
  have hnot : ¬ Idle d := by
    rintro ⟨-, -, hw⟩
    rcases hworker with hw' | hw' <;> simp [hw'] at hw
  have hnot' : d.worker ≠ .disabled := by
    rcases hworker with hw | hw <;> simp [hw]
  cases place with
  | user => exact hagree.elim
  | enabling t op => exact absurd hagree.1 hnot'
  | spawning t op => exact absurd hagree.1 hnot'
  | writing t op writes => exact absurd hagree.1 hnot
  | marking t op => exact absurd hagree.1 hnot
  | loading t op => exact absurd hagree.1 hnot
  | starting t op control => exact absurd hagree.1 hnot
  | waiting t op =>
      cases hagree.2 with
      | before _ _ hwritten hcalled => exact ⟨t, op, rfl, hcalled, hwritten⟩
      | clearing hw => rcases hworker with hw' | hw' <;> exact nomatch hw.symm.trans hw'
      | publishing hw => rcases hworker with hw' | hw' <;> exact nomatch hw.symm.trans hw'
      | done hw => rcases hworker with hw' | hw' <;> simp [hw'] at hw
  | reading t op => exact absurd hagree.1 hnot
  | stopping t => exact absurd hagree.1 hnot
  | joining t => rcases hworker with hw | hw <;> simp [Agree, hw] at hagree
  | releasing t => exact absurd hagree.1 hnot'
  | thrown t => exact hagree.elim

theorem Inv.oneScanPerCall (h : Inv s) : OneScanPerCall s where
  calls := by
    intro t
    cases howner : (s.threads t).owner with
    | none => exact .inl (h.free t howner).complete
    | some g => exact calls_of_agree (h.locked t g howner).2
  returned := fun t howner => (h.free t howner).complete
  picked := by
    intro t hworker
    cases howner : (s.threads t).owner with
    | none =>
        have hdisabled := (h.free t howner).disabled
        rcases hworker with hw | hw <;> exact nomatch hw.symm.trans hdisabled
    | some g =>
        obtain ⟨hthread, hagree⟩ := h.locked t g howner
        obtain ⟨u, op, hplace, hcalled, hwritten⟩ := waiting_of_picked hagree hworker
        rw [hplace] at hthread
        obtain rfl := Option.some.inj hthread
        exact ⟨g, op, hplace, hcalled, hwritten⟩
  reads := by
    intro g t op hplace
    have hthread : (s.hosts g).thread = some t := by rw [hplace]; rfl
    obtain ⟨-, hagree⟩ := h.locked t g (h.owned g t hthread)
    rw [hplace] at hagree
    obtain ⟨hidle, hqueued, hscanned⟩ := hagree
    exact ⟨hscanned, hidle.worker.resolve_left hqueued, hidle.notStarted⟩
  noThrow := by
    intro g t hplace
    have hthread : (s.hosts g).thread = some t := by rw [hplace]; rfl
    obtain ⟨-, hagree⟩ := h.locked t g (h.owned g t hthread)
    rw [hplace] at hagree
    exact hagree
  returns := fun _ _ _ hthread hfair => InCall.returns ⟨h, hthread⟩ hfair
  completes := by
    intro g t op huser hnone
    refine ⟨_, by rw [HandshakeState.next, huser, hnone], fun sched hfair => ?_⟩
    have hinv := h.next (e := .call g t op) (by rw [HandshakeState.next, huser, hnone])
    refine InCall.completes ⟨hinv, ?_⟩ ?_ hfair
    · dsimp only
      rw [Function.update_self]
      rfl
    · dsimp only
      rw [Function.update_self]
      exact ⟨[], rfl, fun _ _ => List.not_mem_nil⟩

/-- **The handshake.** For any number of hosts and device threads and every interleaving, what happens on a device
    thread is one complete call after the other, and every call on a free device thread is accepted and completed. -/
theorem handshake_orderly (es : List HandshakeEvent) : Along next OneScanPerCall init es :=
  along_of_invariant (fun _ _ _ h hnext => h.next hnext) (fun _ => Inv.oneScanPerCall) inv_init

/-- A range scan with a bit vector as its result. -/
def sampleRange : ScanOperation := ⟨10, 0x1000, 100, .range 3 7, .bitVector, 0x2000, 128⟩

/-- An in-list scan with indices as its result. -/
def sampleList : ScanOperation := ⟨12, 0x4000, 50, .inList 4096 0x8000, .indexVector, 0x6000, 20⟩

/-- Two hosts run their scans at the same time, on two device threads. Host 1 finishes first, and calls again on the
    device thread of host 0 when that has returned. -/
def sampleCalls : List HandshakeEvent :=
  [.call 0 0 sampleRange, .call 1 1 sampleList] ++
    -- both write their registers and start, and then wait
    (List.replicate 21 [.host 0, .host 1]).flatten ++ [.host 0, .host 1] ++
    (List.replicate 7 [.worker 1 ⟨5, 1, 2⟩, .worker 0 ⟨100, 3, 4⟩]).flatten ++
    (List.replicate 3 [.host 1, .host 0]).flatten ++ [.worker 0 ⟨0, 0, 0⟩, .worker 1 ⟨0, 0, 0⟩] ++
    (List.replicate 2 [.host 1, .host 0]).flatten ++ [.call 1 0 sampleList]

theorem handshake_two_hosts :
    ∃ s, sampleCalls.foldlM next init = some s ∧ OneScanPerCall s ∧
      s.hosts 0 = .user ∧ s.hosts 1 = .enabling 0 sampleList ∧
      (∃ regs, regs.WrittenBy sampleRange ∧
        (s.threads 0).log = [.called 1 sampleList, .read 0 ⟨100, 3, 4⟩, .scanned regs ⟨100, 3, 4⟩,
          .called 0 sampleRange]) ∧
      ∃ regs, regs.WrittenBy sampleList ∧
        (s.threads 1).log = [.read 1 ⟨5, 1, 2⟩, .scanned regs ⟨5, 1, 2⟩, .called 1 sampleList] := by
  refine ⟨_, rfl, (handshake_orderly sampleCalls).of_foldlM rfl, rfl, rfl, ?_, ?_⟩
  · exact ⟨_, ⟨rfl, rfl⟩, rfl⟩
  · exact ⟨_, ⟨rfl, rfl⟩, rfl⟩

end HandshakeState

end Pnm.Imdb
